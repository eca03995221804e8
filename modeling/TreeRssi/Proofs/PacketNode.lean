/-
Module: TreeRssi.Proofs.PacketNode
Layer: Proofs
Purpose: Conservation of packets at one node. However receptions, generation and deliveries of
  `ev_route_pkt` interleave, the blocks in use are those of the queued packets, a queued packet is never
  left without an event, and each packet that obtained a block is either queued or was consumed once and
  freed once. A delivery leaves nothing queued, so by then every packet has come to its end.
Imports: TreeRssi.Core.PacketNode, TreeRssi.Lib.Run, TreeRssi.Proofs.Delivery
Trusted boundary: none
Main exports: Consumption.Justified, Accounted, Awake, Accounted.carryOut, Accounted.routeAll, receive_view,
  generatePktDst_view, Accounted.next, packets_conserved
Open obligations: none
-/
import TreeRssi.Core.PacketNode
import TreeRssi.Lib.Run
import TreeRssi.Proofs.Delivery

namespace TreeRssi

open BlockPool LabelledRun

/-! ### What is maintained -/

/-- A packet is delivered at its destination, handed to a neighbour, or dropped where there is no
    parent. -/
def Consumption.Justified (me : LinkAddr) (c : Consumption) : Prop :=
  match c.decision with
  | .deliver => c.packet.entry.dst = me.u8_0
  | .forward nextHop => c.packet.entry.dst ≠ me.u8_0 ∧ nextHop ≠ linkaddrNull
  | .drop => c.packet.entry.dst ≠ me.u8_0 ∧ c.bestParentId = linkaddrNull

/-- The packets of a node are accounted for. -/
structure Accounted (me : LinkAddr) (s : PacketNode) : Prop where
  owned : Owned s.mem s.pktList
  numbers : s.log.obtained.map Packet.number = (List.range s.log.obtained.length).reverse
  conserved : s.log.obtained.Perm (s.log.consumed.map Consumption.packet ++ s.pktList.map s.packet)
  freed : s.log.freed = s.log.consumed.map Consumption.packet
  justified : ∀ c ∈ s.log.consumed, c.Justified me
  sent : s.log.sent.map Frame.dst = s.log.consumed.filterMap Consumption.nextHop

/-- Packets are queued only while an event is pending. -/
def Awake (s : PacketNode) : Prop := s.pktList ≠ [] → 0 < s.pending

theorem Accounted.boot (me : LinkAddr) : Accounted me PacketNode.boot where
  owned := owned_empty
  numbers := rfl
  conserved := .nil
  freed := rfl
  justified _ member := by cases member
  sent := rfl

variable {me source : LinkAddr} {s s' : PacketNode} {pe : PktPtr} {packetbufSize : Nat}

theorem Accounted.nodup (accounted : Accounted me s) : s.log.obtained.Nodup := by
  apply List.Nodup.of_map Packet.number
  rw [accounted.numbers, List.nodup_reverse]
  exact List.nodup_range

/-! ### The producers -/

/-- A packet that obtains a block. -/
structure Queued (s : PacketNode) (entry : PktEntry) (s' : PacketNode) : Prop where
  owned : Owned s'.mem s'.pktList
  queued : s'.pktList.map s'.packet = ⟨s.log.obtained.length, entry⟩ :: s.pktList.map s.packet
  pending : s'.pending = s.pending + 1
  obtained : s'.log.obtained = ⟨s.log.obtained.length, entry⟩ :: s.log.obtained
  consumed : s'.log.consumed = s.log.consumed
  freed : s'.log.freed = s.log.freed
  sent : s'.log.sent = s.log.sent

/-- A packet is queued, or every block is taken and nothing happens. -/
theorem enqueue_cases (owned : Owned s.mem s.pktList) (entry : PktEntry) :
    (pktMem ≤ s.pktList.length ∧ s.enqueue entry = s) ∨ Queued s entry (s.enqueue entry) := by
  rw [PacketNode.enqueue]
  cases allocated : alloc s.mem with
  | none => exact .inl ⟨owned.alloc_none.mp allocated, rfl⟩
  | some taken =>
      obtain ⟨pe, mem⟩ := taken
      have fresh := owned.fresh allocated
      refine .inr ⟨owned.push allocated, ?_, rfl, rfl, rfl, rfl, rfl⟩
      simp only [push_new fresh, List.map_cons]
      congr 1
      · simp [PacketNode.packet]
      · apply List.map_congr_left
        intro b listed
        have other : b ≠ pe := by
          rintro rfl
          exact fresh listed
        simp [PacketNode.packet, other]

/-- A packet that obtains a block is queued, and an event is posted. -/
theorem Accounted.enqueue (accounted : Accounted me s) (awake : Awake s) (entry : PktEntry) :
    Accounted me (s.enqueue entry) ∧ Awake (s.enqueue entry) := by
  rcases enqueue_cases accounted.owned entry with ⟨-, same⟩ | queued
  · rw [same]
    exact ⟨accounted, awake⟩
  · refine ⟨⟨queued.owned, ?_, ?_, ?_, ?_, ?_⟩, fun _ => by rw [queued.pending]; exact Nat.succ_pos _⟩
    · rw [queued.obtained, List.map_cons, List.length_cons, List.range_succ, List.reverse_append,
        accounted.numbers]
      rfl
    · rw [queued.obtained, queued.consumed, queued.queued]
      exact (accounted.conserved.cons _).trans List.perm_middle.symm
    · rw [queued.freed, queued.consumed]
      exact accounted.freed
    · rw [queued.consumed]
      exact accounted.justified
    · rw [queued.sent, queued.consumed]
      exact accounted.sent

theorem Accounted.receive (accounted : Accounted me s) (awake : Awake s) (source : LinkAddr)
    (raw : List UInt8) : Accounted me (s.receive me source raw) ∧ Awake (s.receive me source raw) := by
  rw [PacketNode.receive]
  cases recvUc raw with
  | nothing => exact ⟨accounted, awake⟩
  | control payload => exact ⟨accounted, awake⟩
  | data msg =>
      by_cases sink : me.u8_0 = 1
      · simp only [if_pos sink]
        have counted : ∀ table, Accounted me { s with pktStatsTable := table } := fun _ =>
          ⟨accounted.owned, accounted.numbers, accounted.conserved, accounted.freed,
            accounted.justified, accounted.sent⟩
        refine Accounted.enqueue ?_ ?_ _
        · exact counted _
        · exact awake
      · simp only [if_neg sink]
        exact accounted.enqueue awake _

theorem Accounted.generatePktDst (accounted : Accounted me s) (awake : Awake s) :
    Accounted me (s.generatePktDst me) ∧ Awake (s.generatePktDst me) := by
  rw [PacketNode.generatePktDst]
  by_cases origin : me.u8_0 = origen
  · simp only [if_pos origin]
    have counted : Accounted me { s with seqNum := u16 (s.seqNum + 1) } :=
      ⟨accounted.owned, accounted.numbers, accounted.conserved, accounted.freed,
        accounted.justified, accounted.sent⟩
    refine Accounted.enqueue ?_ ?_ _
    · exact counted
    · exact awake
  · rw [if_neg origin]
    exact ⟨accounted, awake⟩

/-! ### The consumer -/

/-- What the three ways out of the loop have in common: the block is freed, and the log has one entry
    more. -/
structure CarriedOut (s : PacketNode) (pe : PktPtr) (c : Consumption) (s' : PacketNode) : Prop where
  mem : s'.mem = free s.mem pe
  pktList : s'.pktList = s.pktList
  packet : s'.packet = s.packet
  pending : s'.pending = s.pending
  obtained : s'.log.obtained = s.log.obtained
  consumed : s'.log.consumed = c :: s.log.consumed
  freed : s'.log.freed = c.packet :: s.log.freed
  sent : s'.log.sent.map Frame.dst = c.nextHop.toList ++ s.log.sent.map Frame.dst

theorem carryOut_carriedOut (packetbufSize : Nat) (me bestParentId : LinkAddr) (s : PacketNode)
    (pe : PktPtr) (decision : Decision) :
    CarriedOut s pe ⟨s.packet pe, bestParentId, decision⟩
      (s.carryOut packetbufSize me bestParentId pe decision) := by
  cases decision with
  | deliver => exact ⟨rfl, rfl, rfl, rfl, rfl, rfl, rfl, rfl⟩
  | drop => exact ⟨rfl, rfl, rfl, rfl, rfl, rfl, rfl, rfl⟩
  | forward nextHop => exact ⟨rfl, rfl, rfl, rfl, rfl, rfl, rfl, rfl⟩

/-- Every decision of `routing_upstream_downstream` is justified. -/
theorem routeHop_justified {fuel : Nat} {tree : RoutingTree} {packet : Packet} {bestParentId : LinkAddr}
    {decision : Decision}
    (decided : routeHop fuel tree bestParentId me.u8_0 packet.entry.dst = some decision) :
    Consumption.Justified me ⟨packet, bestParentId, decision⟩ := by
  rw [routeHop] at decided
  by_cases here : packet.entry.dst = me.u8_0
  · rw [if_pos here] at decided
    cases decided
    exact here
  · rw [if_neg here] at decided
    obtain ⟨forwarder, -, rfl⟩ := Option.map_eq_some_iff.mp decided
    by_cases upwards : forwarder = 0
    · by_cases noParent : bestParentId = linkaddrNull
      · rw [if_pos upwards, if_pos noParent]
        exact ⟨here, noParent⟩
      · rw [if_pos upwards, if_neg noParent]
        exact ⟨here, noParent⟩
    · have known : (⟨forwarder, 0⟩ : LinkAddr) ≠ linkaddrNull := fun same =>
        upwards (congrArg LinkAddr.u8_0 same)
      rw [if_neg upwards]
      exact ⟨here, known⟩

/-- The packet at the head of the list comes to its end. -/
theorem Accounted.carryOut (accounted : Accounted me s) {rest : List PktPtr}
    (head : s.pktList = pe :: rest) {fuel : Nat} {tree : RoutingTree} {bestParentId : LinkAddr}
    {decision : Decision}
    (decided : routeHop fuel tree bestParentId me.u8_0 (s.block pe).dst = some decision)
    (out : CarriedOut { s with pktList := s.pktList.erase pe } pe
      ⟨s.packet pe, bestParentId, decision⟩ s') :
    Accounted me s' ∧ s'.pktList = rest ∧ s'.pending = s.pending ∧
      s'.log.obtained = s.log.obtained := by
  have left : s.pktList.erase pe = rest := by
    rw [head, List.erase_cons_head]
  have list : s'.pktList = rest := out.pktList.trans left
  have obtained : s'.log.obtained = s.log.obtained := out.obtained
  have packet : s'.packet = s.packet := out.packet
  refine ⟨⟨?_, ?_, ?_, ?_, ?_, ?_⟩, list, out.pending, obtained⟩
  · rw [list, ← left, out.mem]
    exact accounted.owned.remove pe
  · rw [obtained]
    exact accounted.numbers
  · have before := accounted.conserved
    rw [head, List.map_cons] at before
    rw [obtained, list, packet, out.consumed]
    exact before.trans List.perm_middle
  · rw [out.freed, out.consumed, List.map_cons]
    exact congrArg _ accounted.freed
  · rw [out.consumed]
    exact List.forall_mem_cons.mpr ⟨routeHop_justified decided, accounted.justified⟩
  · rw [out.sent, out.consumed, List.filterMap_cons]
    have earlier : s.log.sent.map Frame.dst = s.log.consumed.filterMap Consumption.nextHop :=
      accounted.sent
    change _ ++ s.log.sent.map Frame.dst = _
    rw [earlier]
    cases decision with
    | deliver => rfl
    | drop => rfl
    | forward nextHop => rfl

/-- The loop leaves nothing queued, and accounts for everything. -/
theorem Accounted.routeAll {fuel turns : Nat} {tree : RoutingTree} {bestParentId : LinkAddr}
    (accounted : Accounted me s)
    (routed : s.routeAll packetbufSize me tree bestParentId fuel turns = some s') :
    Accounted me s' ∧ s'.pktList = [] ∧ s'.log.obtained = s.log.obtained := by
  induction turns generalizing s with
  | zero => cases routed
  | succ turns ih =>
      rw [PacketNode.routeAll] at routed
      cases head : s.pktList with
      | nil =>
          rw [head] at routed
          cases routed
          exact ⟨accounted, head, rfl⟩
      | cons pe rest =>
          rw [head] at routed
          obtain ⟨decision, decided, routed⟩ := Option.bind_eq_some_iff.mp routed
          have step := accounted.carryOut head decided
            (by rw [head]; exact carryOut_carriedOut packetbufSize me bestParentId _ pe decision)
          obtain ⟨accounted', empty, obtained⟩ := ih step.1 routed
          exact ⟨accounted', empty, obtained.trans step.2.2.2⟩

/-- The loop ends if the search for every queued destination does. -/
theorem routeAll_terminates (packetbufSize : Nat) {fuel turns : Nat} {tree : RoutingTree}
    {bestParentId : LinkAddr}
    (decides : ∀ pe ∈ s.pktList,
      ∃ decision, routeHop fuel tree bestParentId me.u8_0 (s.block pe).dst = some decision)
    (enough : s.pktList.length < turns) :
    ∃ s', s.routeAll packetbufSize me tree bestParentId fuel turns = some s' := by
  induction turns generalizing s with
  | zero => cases enough
  | succ turns ih =>
      rw [PacketNode.routeAll]
      cases head : s.pktList with
      | nil => exact ⟨s, rfl⟩
      | cons pe rest =>
          rw [head] at decides enough
          obtain ⟨⟨decision, decided⟩, later⟩ := List.forall_mem_cons.mp decides
          simp only [List.erase_cons_head, decided, Option.bind_some]
          have out := carryOut_carriedOut packetbufSize me bestParentId { s with pktList := rest } pe
            decision
          have block : ∀ q, ((PacketNode.carryOut packetbufSize me bestParentId
              { s with pktList := rest } pe decision).block q).dst = (s.block q).dst := fun q =>
            congrArg (fun packet => (packet q).entry.dst) out.packet
          apply ih
          · intro q queued
            rw [out.pktList] at queued
            rw [block]
            exact later q queued
          · rw [out.pktList]
            exact Nat.lt_of_succ_lt_succ enough

/-! ### The list of entries -/

/-- Queueing a packet does to the list of entries what the model of the list says. -/
theorem enqueue_view (owned : Owned s.mem s.pktList) (entry : PktEntry) :
    (s.enqueue entry).view =
      if s.view.pktList.length < pktMem then { s.view with pktList := entry :: s.view.pktList }
      else s.view := by
  have length : s.view.pktList.length = s.pktList.length := List.length_map _
  rw [PacketNode.enqueue, length]
  cases allocated : alloc s.mem with
  | none => rw [if_neg (Nat.not_lt.mpr (owned.alloc_none.mp allocated))]
  | some taken =>
      have fresh := owned.fresh allocated
      have room : s.pktList.length < pktMem := by
        by_contra full
        rw [owned.alloc_none.mpr (Nat.not_lt.mp full)] at allocated
        cases allocated
      rw [if_pos room]
      simp [PacketNode.view, push_new fresh, contents_update _ _ fresh]

/-- A reception does to the list of entries what the model of the list says. -/
theorem receive_view (owned : Owned s.mem s.pktList) (raw : List UInt8) :
    (s.receive me source raw).view = s.view.receive me source raw := by
  rw [PacketNode.receive, DataState.receive]
  cases recvUc raw with
  | nothing => rfl
  | control payload => rfl
  | data msg =>
      by_cases sink : me.u8_0 = 1
      · simp only [if_pos sink]
        rw [enqueue_view]
        · rfl
        · exact owned
      · simp only [if_neg sink]
        exact enqueue_view owned _

/-- So does a turn of `generate_pkt_dst`. -/
theorem generatePktDst_view (owned : Owned s.mem s.pktList) :
    (s.generatePktDst me).view = s.view.generatePktDst me := by
  rw [PacketNode.generatePktDst, DataState.generatePktDst]
  by_cases origin : me.u8_0 = origen
  · simp only [if_pos origin]
    rw [enqueue_view]
    · rfl
    · exact owned
  · rw [if_neg origin, if_neg origin]

/-! ### Runs -/

/-- A delivery takes one pending event, and runs the loop. -/
theorem route_some {fuel : Nat} {tree : RoutingTree} {bestParentId : LinkAddr}
    (stepped : s.next packetbufSize me (.route fuel tree bestParentId) = some s') :
    ∃ pending, s.pending = pending + 1 ∧ PacketNode.routeAll packetbufSize me tree bestParentId fuel fuel
      { s with pending := pending } = some s' := by
  rw [PacketNode.next, PacketNode.routingUpstreamDownstream] at stepped
  cases waiting : s.pending with
  | zero => simp [waiting] at stepped
  | succ pending => exact ⟨pending, rfl, by simpa only [waiting] using stepped⟩

/-- Taking an event changes no packet. -/
theorem Accounted.unpost (accounted : Accounted me s) (pending : Nat) :
    Accounted me { s with pending := pending } :=
  ⟨accounted.owned, accounted.numbers, accounted.conserved, accounted.freed, accounted.justified,
    accounted.sent⟩

/-- A delivery leaves nothing queued, and accounts for everything. -/
theorem Accounted.route (accounted : Accounted me s) {fuel : Nat} {tree : RoutingTree}
    {bestParentId : LinkAddr}
    (stepped : s.next packetbufSize me (.route fuel tree bestParentId) = some s') :
    Accounted me s' ∧ s'.pktList = [] ∧ s'.log.obtained = s.log.obtained := by
  obtain ⟨pending, -, routed⟩ := route_some stepped
  exact (accounted.unpost pending).routeAll routed

/-- An event that is pending can be delivered, if the search for every queued destination ends. -/
theorem route_enabled {fuel : Nat} {tree : RoutingTree} {bestParentId : LinkAddr}
    (awake : 0 < s.pending)
    (decides : ∀ pe ∈ s.pktList,
      ∃ decision, routeHop fuel tree bestParentId me.u8_0 (s.block pe).dst = some decision) :
    ∃ enough s', s.next packetbufSize me (.route enough tree bestParentId) = some s' := by
  cases waiting : s.pending with
  | zero => exact absurd waiting (Nat.ne_of_gt awake)
  | succ pending =>
      let enough := max fuel (s.pktList.length + 1)
      have more : ∀ pe ∈ s.pktList,
          ∃ decision, routeHop enough tree bestParentId me.u8_0 (s.block pe).dst = some decision := by
        intro pe queued
        obtain ⟨decision, decided⟩ := decides pe queued
        exact ⟨decision, routeHop_mono (Nat.le_max_left _ _) decided⟩
      have turns : s.pktList.length < enough :=
        Nat.lt_of_lt_of_le (Nat.lt_succ_self _) (Nat.le_max_right _ _)
      obtain ⟨s', routed⟩ := routeAll_terminates packetbufSize (s := { s with pending := pending })
        more turns
      refine ⟨enough, s', ?_⟩
      rw [PacketNode.next, PacketNode.routingUpstreamDownstream, waiting]
      exact routed

/-- One step keeps the account. -/
theorem Accounted.next (accounted : Accounted me s) (awake : Awake s) {event : PacketEvent}
    (stepped : s.next packetbufSize me event = some s') : Accounted me s' ∧ Awake s' := by
  cases event with
  | receive source raw =>
      cases stepped
      exact accounted.receive awake source raw
  | generate =>
      cases stepped
      exact accounted.generatePktDst awake
  | route fuel tree bestParentId =>
      obtain ⟨after, empty, -⟩ := accounted.route stepped
      exact ⟨after, fun queued => absurd empty queued⟩

/-- A packet that is not queued was consumed once, and freed once. -/
theorem Accounted.once (accounted : Accounted me s) {packet : Packet} (obtained : packet ∈ s.log.obtained)
    (gone : packet ∉ s.pktList.map s.packet) :
    (s.log.consumed.map Consumption.packet).count packet = 1 ∧ s.log.freed.count packet = 1 := by
  have total := accounted.conserved.count_eq packet
  rw [List.count_append, List.count_eq_one_of_mem accounted.nodup obtained,
    List.count_eq_zero_of_not_mem gone] at total
  rw [accounted.freed]
  exact ⟨total.symm, total.symm⟩

/-- A packet that is queued was neither consumed nor freed. -/
theorem Accounted.notYet (accounted : Accounted me s) {packet : Packet}
    (queued : packet ∈ s.pktList.map s.packet) :
    packet ∉ s.log.consumed.map Consumption.packet ∧ packet ∉ s.log.freed := by
  have apart := List.nodup_append.mp (accounted.conserved.nodup_iff.mp accounted.nodup)
  have notIn : packet ∉ s.log.consumed.map Consumption.packet := fun consumed =>
    apart.2.2 packet consumed packet queued rfl
  exact ⟨notIn, by rwa [accounted.freed]⟩

variable {trace : List (PacketNode × PacketEvent)}

theorem run_accounted (run : Run (PacketNode.next packetbufSize me) anyStep PacketNode.boot trace s) :
    Accounted me s ∧ Awake s :=
  run.invariant (I := fun s => Accounted me s ∧ Awake s)
    ⟨Accounted.boot me, fun queued => absurd rfl queued⟩
    fun _ _ _ both _ stepped => both.1.next both.2 stepped

/-- In every run of receptions, generation and deliveries: the blocks in use are those of the queued
    packets, at most 10; packets are queued only while an event is pending; a packet that obtained a block
    is queued and neither consumed nor freed, or it was consumed once and freed once; each was delivered at
    its destination, handed to `unicast_send` with one next hop, or dropped where there was no parent; and
    the delivery of an event, which is possible if the searches end, leaves no packet that was not
    consumed. -/
theorem packets_conserved
    (run : Run (PacketNode.next packetbufSize me) anyStep PacketNode.boot trace s) :
    ((∀ pe, s.mem pe = true ↔ pe ∈ s.pktList) ∧ s.pktList.Nodup ∧ s.pktList.length ≤ 10) ∧
    (s.pktList ≠ [] → 0 < s.pending) ∧
    (∀ packet ∈ s.log.obtained,
      packet ∈ s.pktList.map s.packet ∧ packet ∉ s.log.consumed.map Consumption.packet ∧
          packet ∉ s.log.freed ∨
        packet ∉ s.pktList.map s.packet ∧
          (s.log.consumed.map Consumption.packet).count packet = 1 ∧ s.log.freed.count packet = 1) ∧
    ((∀ c ∈ s.log.consumed, c.packet ∈ s.log.obtained ∧ c.Justified me) ∧
      s.log.sent.map Frame.dst = s.log.consumed.filterMap Consumption.nextHop) ∧
    ∀ tree bestParentId,
      ((0 < s.pending ∧ ∃ fuel, ∀ pe ∈ s.pktList, ∃ decision,
          routeHop fuel tree bestParentId me.u8_0 (s.block pe).dst = some decision) →
        ∃ fuel s', s.next packetbufSize me (.route fuel tree bestParentId) = some s') ∧
      ∀ fuel s', s.next packetbufSize me (.route fuel tree bestParentId) = some s' →
        s'.pktList = [] ∧ s'.log.obtained = s.log.obtained ∧ ∀ packet ∈ s.log.obtained,
          (s'.log.consumed.map Consumption.packet).count packet = 1 ∧
            s'.log.freed.count packet = 1 := by
  obtain ⟨accounted, awake⟩ := run_accounted run
  refine ⟨⟨accounted.owned.used, accounted.owned.nodup, accounted.owned.length_le⟩, awake,
    fun packet obtained => ?_, ⟨fun c consumed => ⟨?_, accounted.justified c consumed⟩, accounted.sent⟩,
    fun tree bestParentId => ⟨?_, fun fuel s' stepped => ?_⟩⟩
  · by_cases queued : packet ∈ s.pktList.map s.packet
    · exact .inl ⟨queued, accounted.notYet queued⟩
    · exact .inr ⟨queued, accounted.once obtained queued⟩
  · exact accounted.conserved.mem_iff.mpr (List.mem_append_left _ (List.mem_map_of_mem consumed))
  · rintro ⟨pending, fuel, decides⟩
    exact route_enabled pending decides
  · obtain ⟨after, empty, obtained⟩ := accounted.route stepped
    refine ⟨empty, obtained, fun packet member => after.once (by rwa [obtained]) ?_⟩
    rw [empty]
    exact List.not_mem_nil

/-- Node 8 generates a packet and hands it to its parent, node 3. -/
theorem packets_conserved_generated :
    ∃ s, execute (PacketNode.next 128 ⟨8, 0⟩) PacketNode.boot [.generate, .route 2 [] ⟨3, 0⟩] = some s ∧
      (∀ pe, s.mem pe ≠ true) ∧ s.log.sent.map Frame.dst = [⟨3, 0⟩] := by
  have ends : ((execute (PacketNode.next 128 ⟨8, 0⟩) PacketNode.boot [.generate, .route 2 [] ⟨3, 0⟩]).map
      fun s => (s.pktList, s.log.sent.map Frame.dst)) = some ([], [⟨3, 0⟩]) := by
    decide +kernel
  obtain ⟨s, executed, facts⟩ := Option.map_eq_some_iff.mp ends
  obtain ⟨list, sent⟩ := Prod.mk.inj facts
  have run := Run.of_execute anyStep (fun _ _ _ => trivial) executed
  have used := (packets_conserved run).1.1
  refine ⟨s, executed, fun pe => ?_, sent⟩
  rw [ne_eq, used, list]
  exact List.not_mem_nil

end TreeRssi
