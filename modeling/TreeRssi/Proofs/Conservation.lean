/-
Module: TreeRssi.Proofs.Conservation
Layer: Proofs
Purpose: Conservation of packets in the whole program, whatever the control plane does: nothing is forged,
  nothing vanishes without a trace, a packet is lost only on the air or at a node that has no block left, and
  as long as the number of the origin has not wrapped no packet is in two places or ends twice. The last
  rests on the numbers: what has been born at the origin carries different numbers, all below the counter.
Imports: TreeRssi.Proofs.LossAccounting, TreeRssi.Proofs.SystemRun
Trusted boundary: none
Main exports: numberedEntry_injective, turns, Numbered, run_numbered, lostIn, run_lost,
  packets_conserved_everywhere
Open obligations: none
-/
import TreeRssi.Proofs.LossAccounting
import TreeRssi.Proofs.SystemRun

namespace TreeRssi

open CText LabelledRun TokenFlow

variable {nodes : Finset LinkAddr} {packetbufSize : Nat} {s s' : System} {origin : LinkAddr}

/-! ### Numbers -/

/-- Entries with different numbers are different. -/
theorem numberedEntry_injective {n m : Nat} (numbered : n < 65536) (numbered' : m < 65536)
    (same : numberedEntry n origen destino = numberedEntry m origen destino) : n = m := by
  have texts := congrArg (fun pe => pe.msg.text) same
  simp only [numberedEntry_text numbered, numberedEntry_text numbered'] at texts
  let arrival : DataArrival := ⟨linkaddrNull, destino, n, origen, numbered, by decide⟩
  let arrival' : DataArrival := ⟨linkaddrNull, destino, m, origen, numbered', by decide⟩
  have read : parseStats arrival.text = parseStats arrival'.text := by
    simp only [DataArrival.text, arrival, arrival', texts]
  rw [parseStats_text, parseStats_text] at read
  exact (Prod.mk.inj read).1

theorem enqueue_seqNum (p : PacketNode) (pe : PktEntry) : (p.enqueue pe).seqNum = p.seqNum := by
  rw [PacketNode.enqueue]
  split <;> rfl

/-- The counter belongs to `generate_pkt_dst` alone. -/
theorem receive_seqNum (p : PacketNode) (me source : LinkAddr) (raw : List UInt8) :
    (p.receive me source raw).seqNum = p.seqNum := by
  rw [PacketNode.receive]
  split
  · dsimp only
    split <;> exact enqueue_seqNum _ _
  · rfl

theorem post_seqNum (p p' : PacketNode) (posted : Bool) : (p.post posted p').seqNum = p'.seqNum := by
  cases posted <;> rfl

/-- The turns of `generate_pkt_dst` at a node. -/
def turns (node : LinkAddr) (trace : List (System × SystemAction)) : Nat :=
  trace.countP fun e => match e.2 with
    | .generate other _ => other = node
    | _ => false

/-- After `k` turns at the only origin: the counter is `k`, and what has been born there carries different
    numbers from 1 to `k`. -/
structure Numbered (origin : LinkAddr) (k : Nat) (s : System) : Prop where
  seqNum : (s.data origin).seqNum = k
  born : ∀ t ∈ s.log.born, ∃ n, 1 ≤ n ∧ n ≤ k ∧ t = (origin, numberedEntry n origen destino)
  nodup : s.log.born.Nodup

/-- A turn of the origin. -/
theorem Numbered.generate {k : Nat} (numbered : Numbered origin k s) (inv : SystemInv s)
    (isOrigin : origin.u8_0 = origen) (bound : k + 1 < 65536) {posted : Bool}
    (stepped : s.step nodes packetbufSize (.generate origin posted) = some s') :
    Numbered origin (k + 1) s' := by
  obtain ⟨-, same⟩ := Option.ite_none_right_eq_some.mp stepped
  cases same
  have next : u16 ((s.data origin).seqNum + 1) = k + 1 := by
    rw [numbered.seqNum]
    exact Nat.mod_eq_of_lt bound
  have seqNum : (s.generated origin posted).seqNum = k + 1 := by
    rw [System.generated, post_seqNum, PacketNode.generatePktDst, if_pos isOrigin, enqueue_seqNum]
    exact next
  have offered := (generatePktDst_offered (inv.accounted origin).owned isOrigin).post posted
  rw [next] at offered
  have old : ∀ t ∈ s.log.born, ∃ n, 1 ≤ n ∧ n ≤ k + 1 ∧ t = (origin, numberedEntry n origen destino) :=
    fun t member => (numbered.born t member).imp fun n h => ⟨h.1, Nat.le_succ_of_le h.2.1, h.2.2⟩
  have queued : s.queuedSince origin (s.generated origin posted) = [] ∨
      s.queuedSince origin (s.generated origin posted) =
        [(origin, numberedEntry (k + 1) origen destino)] := by
    rcases offered.flow origin with ⟨-, nothing, -⟩ | ⟨-, one, -⟩
    · exact .inl (congrArg (List.map _) nothing)
    · exact .inr (congrArg (List.map _) one)
  refine ⟨by simpa using seqNum, ?_, ?_⟩
  · change ∀ t ∈ s.queuedSince origin (s.generated origin posted) ++ s.log.born, _
    rcases queued with nothing | one
    · rwa [nothing]
    · rw [one]
      exact List.forall_mem_cons.mpr ⟨⟨k + 1, Nat.le_add_left _ _, le_rfl, rfl⟩, old⟩
  · change (s.queuedSince origin (s.generated origin posted) ++ s.log.born).Nodup
    rcases queued with nothing | one
    · rw [nothing]
      exact numbered.nodup
    · rw [one]
      refine List.nodup_cons.mpr ⟨fun member => ?_, numbered.nodup⟩
      obtain ⟨n, -, le, same⟩ := numbered.born _ member
      have := numberedEntry_injective bound (by omega) (Prod.mk.inj same).2
      omega

/-- No other step counts, if there is only one origin. -/
theorem Numbered.other {k : Nat} (numbered : Numbered origin k s)
    (only : ∀ i ∈ nodes, i.u8_0 = origen → i = origin) (inv : SystemInv s)
    {action : SystemAction} (another : ∀ posted, action ≠ .generate origin posted)
    (stepped : s.step nodes packetbufSize action = some s') : Numbered origin k s' := by
  have same : (s'.data origin).seqNum = (s.data origin).seqNum ∧ s'.log.born = s.log.born := by
    cases system_stepped stepped with
    | net stepped =>
        rw [(inv.step_net stepped).2]
        exact ⟨rfl, rfl⟩
    | lost => exact ⟨rfl, rfl⟩
    | @generated node posted live =>
        have away : node ≠ origin := fun here => another posted (here ▸ rfl)
        have unchanged : s.generated node posted = s.data node := by
          rw [System.generated, PacketNode.generatePktDst, if_neg fun own => away (only node live.1 own),
            post_self]
        rw [unchanged, System.queuedSince, fresh_self]
        exact ⟨System.setData_keeps _ rfl origin, rfl⟩
    | @received frame posted =>
        exact ⟨System.setData_keeps _ ((post_seqNum _ _ posted).trans (receive_seqNum _ _ _ _)) origin, rfl⟩
    | routed live next =>
        obtain ⟨pending, -, routed⟩ := route_some next
        exact ⟨System.setData_keeps PacketNode.seqNum (routeAll_keeps routed).1 origin, rfl⟩
  exact ⟨same.1.trans numbered.seqNum, by simpa only [same.2] using numbered.born,
    by simpa only [same.2] using numbered.nodup⟩

/-- The counter after a run in which it has not wrapped. -/
theorem run_numbered (big : 128 ≤ packetbufSize) (isOrigin : origin.u8_0 = origen)
    (only : ∀ i ∈ nodes, i.u8_0 = origen → i = origin) {ok : System → SystemAction → Prop}
    {trace : List (System × SystemAction)}
    (run : Run (System.step nodes packetbufSize) ok System.boot trace s)
    (bound : turns origin trace < 65536) : SystemInv s ∧ Numbered origin (turns origin trace) s := by
  induction run with
  | nil => exact ⟨.boot, rfl, by simp [System.boot], List.nodup_nil⟩
  | @snoc trace s s' action _ _ stepped ih =>
      have earlier : turns origin trace ≤ turns origin ((s, action) :: trace) :=
        (List.sublist_cons_self _ _).countP_le
      obtain ⟨inv, numbered⟩ := ih (by omega)
      refine ⟨(inv.step big stepped).1, ?_⟩
      by_cases turn : ∃ posted, action = .generate origin posted
      · obtain ⟨posted, rfl⟩ := turn
        have count : turns origin ((s, .generate origin posted) :: trace) = turns origin trace + 1 := by
          simp [turns]
        rw [count] at bound ⊢
        exact numbered.generate inv isOrigin bound stepped
      · have count : turns origin ((s, action) :: trace) = turns origin trace := by
          rw [turns, turns, List.countP_cons_of_neg]
          cases action with
          | generate node posted =>
              have away : node ≠ origin := by
                rintro rfl
                exact turn ⟨posted, rfl⟩
              simpa using away
          | net | receive | lose | route => simp
        rw [count]
        exact numbered.other only inv (fun posted same => turn ⟨posted, same⟩) stepped

/-! ### Losses -/

/-- The packet that a step loses: one on the air, or one that reaches a node with all its blocks in use. -/
def lostIn (e : System × SystemAction) : List (LinkAddr × PktEntry) :=
  match e.2 with
  | .lose frame => (frameToken frame).toList
  | .receive frame _ => if ∀ b, (e.1.data frame.dst).mem b = true then (frameToken frame).toList else []
  | _ => []

/-- The log of the lost packets has no others. -/
theorem SystemInv.step_lost (inv : SystemInv s) {action : SystemAction}
    (stepped : s.step nodes packetbufSize action = some s') :
    s'.log.lost = lostIn (s, action) ++ s.log.lost := by
  cases system_stepped stepped with
  | net stepped =>
      rw [(inv.step_net stepped).2]
      rfl
  | generated | lost | routed => rfl
  | @received frame posted inAir =>
      obtain ⟨pe, -, -, offered⟩ := inv.offered inAir posted
      change (if s.queuedSince frame.dst (s.received frame posted) = [] then _ else _) ++ s.log.lost =
        (if ∀ b, (s.data frame.dst).mem b = true then _ else _) ++ s.log.lost
      have inUse := BlockPool.alloc_none.symm.trans (inv.accounted frame.dst).owned.alloc_none
      rw [if_congr inUse rfl rfl, System.queuedSince]
      rcases offered.flow frame.dst with ⟨full, nothing, -⟩ | ⟨room, one, -⟩
      · rw [nothing, List.map_nil, if_pos rfl, if_pos full]
      · rw [one, List.map_singleton, if_neg (List.cons_ne_nil _ _), if_neg (Nat.not_le.mpr room)]

theorem run_lost (big : 128 ≤ packetbufSize) {ok : System → SystemAction → Prop}
    {trace : List (System × SystemAction)}
    (run : Run (System.step nodes packetbufSize) ok System.boot trace s) :
    s.log.lost = trace.flatMap lostIn := by
  induction run with
  | nil => rfl
  | snoc earlier _ stepped ih => rw [(run_inv big .boot earlier).step_lost stepped, ih, List.flatMap_cons]

/-! ### The whole program -/

/-- All packets that were ever born, where they are now. -/
def System.everywhere (nodes : Finset LinkAddr) (s : System) : Multiset PktEntry :=
  ((s.flow nodes).queued + (s.flow nodes).air + (s.flow nodes).delivered + (s.flow nodes).dropped +
    (s.flow nodes).lost).map Prod.snd

/-- One part of the flow of the program: what the air and the log have of it, and every node. -/
theorem flow_part {M : Type} [AddCommMonoid M] (part : Flow LinkAddr PktEntry → M) (zero : part 0 = 0)
    (add : ∀ a b, part (a + b) = part a + part b) (nodes : Finset LinkAddr) (s : System) :
    part (s.flow nodes) = part (worldFlow s.air s.log) + nodes.sum fun i => part (nodeFlow i (s.data i)) := by
  rw [System.flow, add, Flow.sum_part part zero add]

/-- A part that no node has is that of the air and the log. -/
theorem flow_world {M : Type} [AddCommMonoid M] (part : Flow LinkAddr PktEntry → M) (zero : part 0 = 0)
    (add : ∀ a b, part (a + b) = part a + part b) (nowhere : ∀ i p, part (nodeFlow i p) = 0)
    (nodes : Finset LinkAddr) (s : System) : part (s.flow nodes) = part (worldFlow s.air s.log) := by
  rw [flow_part part zero add, Finset.sum_eq_zero fun i _ => nowhere i (s.data i), add_zero]

theorem flow_born (nodes : Finset LinkAddr) (s : System) :
    (s.flow nodes).born = (s.log.born : Multiset (LinkAddr × PktEntry)) :=
  flow_world Flow.born rfl Flow.add_born (fun _ _ => rfl) nodes s

theorem flow_air (nodes : Finset LinkAddr) (s : System) : (s.flow nodes).air = airTokens s.air :=
  flow_world Flow.air rfl Flow.add_air (fun _ _ => rfl) nodes s

theorem flow_lost (nodes : Finset LinkAddr) (s : System) :
    (s.flow nodes).lost = (s.log.lost : Multiset (LinkAddr × PktEntry)) :=
  flow_world Flow.lost rfl Flow.add_lost (fun _ _ => rfl) nodes s

theorem flow_queued (nodes : Finset LinkAddr) (s : System) :
    (s.flow nodes).queued = nodes.sum fun i => (nodeFlow i (s.data i)).queued :=
  (flow_part Flow.queued rfl Flow.add_queued nodes s).trans (zero_add _)

theorem flow_delivered (nodes : Finset LinkAddr) (s : System) :
    (s.flow nodes).delivered = nodes.sum fun i => (nodeFlow i (s.data i)).delivered :=
  (flow_part Flow.delivered rfl Flow.add_delivered nodes s).trans (zero_add _)

/-- What is delivered was delivered by a node of its destination. -/
theorem delivered_at (inv : SystemInv s) {t : LinkAddr × PktEntry}
    (delivered : t ∈ (s.flow nodes).delivered) : t.1 ∈ nodes ∧ t.2.dst = t.1.u8_0 := by
  rw [flow_delivered] at delivered
  obtain ⟨i, member, at_⟩ := Multiset.mem_sum.mp delivered
  obtain ⟨c, consumed, kept⟩ := List.mem_filterMap.mp (Multiset.mem_coe.mp at_)
  obtain ⟨deliver, same⟩ := Option.ite_none_right_eq_some.mp kept
  cases same
  have justified := (inv.accounted i).justified c consumed
  rw [Consumption.Justified, deliver] at justified
  exact ⟨member, justified⟩

/-- In every run of the whole program, with any control plane and any loss: the packets that are queued, in
    the air, delivered, dropped or lost are together those that obtained a block at the origin, with the
    text that they were given there; each that is delivered is delivered at a node 17; those that are lost
    are those that a step lost on the air, or that came to a node with all its blocks in use; and if there
    is one origin, and its number has not wrapped, none of them is in two places or ended twice. -/
theorem packets_conserved_everywhere (big : 128 ≤ packetbufSize) {trace : List (System × SystemAction)}
    (run : Run (System.step nodes packetbufSize) anyStep System.boot trace s) :
    s.everywhere nodes = (s.log.born.map Prod.snd : List PktEntry) ∧
    (∀ t ∈ s.log.born, t.1 ∈ nodes ∧ t.1.u8_0 = origen ∧ Generated t.2) ∧
    (∀ t ∈ (s.flow nodes).delivered, t.1 ∈ nodes ∧ t.1.u8_0 = destino) ∧
    (s.flow nodes).lost = (trace.flatMap lostIn : List (LinkAddr × PktEntry)) ∧
    ∀ origin, origin.u8_0 = origen → (∀ i ∈ nodes, i.u8_0 = origen → i = origin) →
      turns origin trace < 65536 → (s.everywhere nodes).Nodup := by
  obtain ⟨⟨-, inv⟩, moves, flow⟩ := run_flow (I := fun _ => True) big .boot trivial
    (fun _ _ _ _ _ _ => trivial) run
  rw [flow_boot] at flow
  have conserved : s.everywhere nodes = (s.log.born.map Prod.snd : List PktEntry) := by
    rw [System.everywhere, Flow.conserved flow, flow_born, Multiset.map_coe]
  have born : ∀ t ∈ s.log.born, t.1 ∈ nodes ∧ t.1.u8_0 = origen ∧ Generated t.2 := by
    have all : ∀ t ∈ (s.flow nodes).born, t.1 ∈ nodes ∧ t.1.u8_0 = origen ∧ Generated t.2 := by
      refine flow.invariant (I := fun f => ∀ t ∈ f.born, t.1 ∈ nodes ∧ t.1.u8_0 = origen ∧ Generated t.2)
        (by simp [Flow.empty]) ?_
      intro f move f' old allowed stepped
      obtain ⟨pre, action, -, -, -, happens⟩ := allowed
      cases move with
      | inject place token =>
          cases stepped
          cases happens with
          | generated member isOrigin generated =>
              exact Multiset.forall_mem_cons.mpr ⟨⟨member, isOrigin, generated⟩, old⟩
          | served _ serves =>
              obtain ⟨pe, decision, -, other, -⟩ := serves
              cases other
      | arrive | lose | serve =>
          rwa [Flow.step_born stepped (by simp)]
    rwa [flow_born] at all
  have lost : (s.flow nodes).lost = (trace.flatMap lostIn : List (LinkAddr × PktEntry)) := by
    rw [flow_lost, run_lost big run]
  refine ⟨conserved, born, fun t delivered => ?_, lost, fun origin isOrigin only bound => ?_⟩
  · obtain ⟨member, own⟩ := delivered_at inv delivered
    have listed : t.2 ∈ s.everywhere nodes := by
      refine Multiset.mem_map_of_mem _ ?_
      simp only [Multiset.mem_add]
      exact .inl (.inl (.inr delivered))
    rw [conserved] at listed
    obtain ⟨u, old, same⟩ := List.mem_map.mp (Multiset.mem_coe.mp listed)
    refine ⟨member, ?_⟩
    rw [← own, ← same, (born u old).2.2.dst]
  · obtain ⟨-, numbered⟩ := run_numbered big isOrigin only run bound
    rw [conserved, Multiset.coe_nodup]
    refine numbered.nodup.map_on fun t member u member' same => ?_
    obtain ⟨n, -, -, rfl⟩ := numbered.born t member
    obtain ⟨m, -, -, rfl⟩ := numbered.born u member'
    exact congrArg (Prod.mk origin) same

/-- The packet that node 8 puts on the air is the one that it made, and is nowhere else. -/
theorem packets_conserved_everywhere_handedOver :
    ∃ s, execute (System.step {⟨1, 0⟩, ⟨8, 0⟩} 128) System.boot handedOver = some s ∧
      s.log.born.length = 1 ∧ (s.everywhere {⟨1, 0⟩, ⟨8, 0⟩}).Nodup := by
  have ends : ((execute (System.step {⟨1, 0⟩, ⟨8, 0⟩} 128) System.boot handedOver).map fun s =>
      s.log.born.length) = some 1 := by
    decide +kernel
  have bound : turns ⟨8, 0⟩ (history (System.step {⟨1, 0⟩, ⟨8, 0⟩} 128) System.boot handedOver) < 65536 := by
    decide +kernel
  obtain ⟨s, executed, born⟩ := Option.map_eq_some_iff.mp ends
  have run := Run.of_execute anyStep (fun _ _ _ => trivial) executed
  have once := (packets_conserved_everywhere (by decide) run).2.2.2.2 ⟨8, 0⟩ rfl (by decide) bound
  exact ⟨s, executed, born, once⟩

end TreeRssi
