/-
Module: TreeRssi.Proofs.Provenance
Layer: Proofs
Purpose: Where the edges of the routing tables come from. `Honest` is the invariant of the whole
  network: every control packet in the air and every string left in a `ctrl_payload` was sent by a node
  that has the edges it tells, and every edge of every table is also in the own entry of its parent,
  which its child told so. The invariant is relative to a relation that contains every (child, parent)
  pair over which a control message was sent.
Imports: TreeRssi.Core.Network, TreeRssi.Proofs.ControlMessages, TreeRssi.Proofs.Search
Trusted boundary: none
Main exports: Stepped, step_stepped, SendsOver, Linked, EdgeOrigin, Honest, Honest.step, run_honest,
  edge_provenance
Open obligations: none
-/
import TreeRssi.Core.Network
import TreeRssi.Proofs.ControlMessages
import TreeRssi.Proofs.Search

namespace TreeRssi

open CText LabelledRun DepthFirst

/-! ### What a step does -/

/-- The outcomes of a step of the network. -/
inductive Stepped (nodes : Finset LinkAddr) (packetbufSize : Nat) (net : Net) :
    NetAction → Net → Prop where
  | radio {action : BeaconAction} {beacons : BeaconNet}
      (stepped : net.beacons.step nodes action = some beacons) :
      Stepped nodes packetbufSize net (.radio action) { net with beacons := beacons }
  | sent {node : LinkAddr} (live : net.beacons.Live nodes node) :
      Stepped nodes packetbufSize net (.sendControl node)
        { net.setControl node (net.sendControl packetbufSize node).1 with
          air := (net.sendControl packetbufSize node).2.toList ++ net.air }
  | received {frame : Frame} {posted : Bool} (inAir : frame ∈ net.air)
      (live : net.beacons.Live nodes frame.dst) :
      Stepped nodes packetbufSize net (.receive frame posted)
        { net.setControl frame.dst ((net.control frame.dst).receive frame.data posted) with
          air := net.air.erase frame }
  | lost {frame : Frame} :
      Stepped nodes packetbufSize net (.lose frame) { net with air := net.air.erase frame }
  | delivered {node : LinkAddr} {s : ControlState} (live : net.beacons.Live nodes node)
      (event : (net.control node).deliver node = some s) :
      Stepped nodes packetbufSize net (.deliver node) (net.setControl node s)

theorem step_stepped {nodes : Finset LinkAddr} {packetbufSize : Nat} {net net' : Net}
    {action : NetAction}
    (stepped : net.step nodes packetbufSize action = some net') :
    Stepped nodes packetbufSize net action net' := by
  cases action with
  | radio action =>
      obtain ⟨beacons, step, rfl⟩ := Option.map_eq_some_iff.mp stepped
      exact .radio step
  | sendControl node =>
      obtain ⟨live, same⟩ := Option.ite_none_right_eq_some.mp stepped
      cases same
      exact .sent live
  | receive frame posted =>
      obtain ⟨⟨inAir, live⟩, same⟩ := Option.ite_none_right_eq_some.mp stepped
      cases same
      exact .received inAir live
  | lose frame =>
      obtain ⟨-, same⟩ := Option.ite_none_right_eq_some.mp stepped
      cases same
      exact .lost
  | deliver node =>
      obtain ⟨live, same⟩ := Option.ite_none_right_eq_some.mp stepped
      obtain ⟨s, event, rfl⟩ := Option.map_eq_some_iff.mp same
      exact .delivered live event

/-- The tree that a node would merge now. -/
def Net.received (net : Net) (node : LinkAddr) : RoutingTree :=
  deserialize (cstr (net.control node).ctrlPayload) maxTreeNodes

section
variable {nodes : Finset LinkAddr} {packetbufSize : Nat} {net net' : Net} {action : NetAction}

/-- What a step does to the control plane of one node: nothing, a turn of `send_routing_table`, the
    reception of a packet for it, or the delivery of an event. -/
theorem Stepped.control (stepped : Stepped nodes packetbufSize net action net') (i : LinkAddr) :
    net'.control i = net.control i ∨
    net'.control i = (net.sendControl packetbufSize i).1 ∨
    (∃ frame ∈ net.air, frame.dst = i ∧
      ∃ posted, net'.control i = (net.control i).receive frame.data posted) ∨
    (i ∈ nodes ∧ action = .deliver i ∧ (net.control i).deliver i = some (net'.control i)) := by
  have other : ∀ {node s}, i ≠ node → (net.setControl node s).control i = net.control i :=
    fun away => if_neg away
  cases stepped with
  | radio | lost => exact .inl rfl
  | @sent node =>
      by_cases here : i = node
      · subst here
        exact .inr (.inl (if_pos rfl))
      · exact .inl (other here)
  | @received frame posted inAir =>
      by_cases here : i = frame.dst
      · subst here
        exact .inr (.inr (.inl ⟨frame, inAir, rfl, posted, if_pos rfl⟩))
      · exact .inl (other here)
  | @delivered node s live event =>
      by_cases here : i = node
      · subst here
        exact .inr (.inr (.inr ⟨live.1, rfl, event.trans (congrArg some (if_pos rfl).symm)⟩))
      · exact .inl (other here)

/-- What a step does to the table of one node: nothing, or the merge of what it received. -/
theorem Stepped.table (stepped : Stepped nodes packetbufSize net action net') (i : LinkAddr) :
    net'.table i = net.table i ∨
      (i ∈ nodes ∧ action = .deliver i ∧
        net'.table i = mergeRecv i.u8_0 (net.table i) (net.received i)) := by
  rcases stepped.control i with same | sent | ⟨frame, -, -, posted, received⟩ | ⟨live, here, event⟩
  · exact .inl (by rw [Net.table, same, Net.table])
  · left
    rw [Net.table, sent]
    exact (sendRoutingTable_keeps _ _ _ _).1
  · left
    rw [Net.table, received]
    exact ControlState.receive_routingTree _ _ _
  · exact .inr ⟨live, here, (ControlState.deliver_some event).1⟩

/-- What a step does to the string in one `ctrl_payload`: nothing, or the copy of a received one. -/
theorem Stepped.ctrlPayload (stepped : Stepped nodes packetbufSize net action net') (i : LinkAddr) :
    (net'.control i).ctrlPayload = (net.control i).ctrlPayload ∨
      ∃ frame ∈ net.air, frame.dst = i ∧ recvUc frame.data = .control (net'.control i).ctrlPayload := by
  rcases stepped.control i with same | sent | ⟨frame, inAir, here, posted, received⟩ | ⟨-, -, event⟩
  · exact .inl (by rw [same])
  · left
    rw [sent]
    exact (sendRoutingTable_keeps _ _ _ _).2
  · rw [received]
    exact (ControlState.receive_ctrlPayload _ _ _).imp_right fun taken => ⟨frame, inAir, here, taken⟩
  · exact .inl (ControlState.deliver_some event).2.1

/-- A packet in the air was there before or has just been sent. -/
theorem Stepped.air (stepped : Stepped nodes packetbufSize net action net') {frame : Frame}
    (inAir : frame ∈ net'.air) :
    frame ∈ net.air ∨ ∃ node ∈ nodes, action = .sendControl node ∧
      (net.sendControl packetbufSize node).2 = some frame := by
  cases stepped with
  | radio | delivered => exact .inl inAir
  | @sent node live =>
      rcases List.mem_append.mp inAir with new | old
      · exact .inr ⟨node, live.1, rfl, Option.mem_toList.mp new⟩
      · exact .inl old
  | received | lost => exact .inl (List.mem_of_mem_erase inAir)

end

/-! ### The invariant -/

/-- The step sends control messages only from a node to one it is linked to. -/
def SendsOver (packetbufSize : Nat) (link : LinkAddr → LinkAddr → Prop) (net : Net) : NetAction → Prop
  | .sendControl node =>
      ∀ frame, (net.sendControl packetbufSize node).2 = some frame → link node (net.best node)
  | _ => True

/-- A link between two nodes of the network. -/
structure Linked (nodes : Finset LinkAddr) (link : LinkAddr → LinkAddr → Prop)
    (child parent : LinkAddr) : Prop where
  child_mem : child ∈ nodes
  parent_mem : parent ∈ nodes
  link : link child parent

/-- The origin of an edge in the table of `i`: the child is linked to the parent, the parent is below `i`
    or `i` itself, and the parent has the edge in its own table. -/
structure EdgeOrigin (nodes : Finset LinkAddr) (link : LinkAddr → LinkAddr → Prop) (net : Net)
    (i parent child : LinkAddr) : Prop where
  linked : Linked nodes link child parent
  below : Relation.ReflTransGen (Linked nodes link) parent i
  own : HasEdge (net.table parent) parent.u8_0 child.u8_0

/-- What holds in every reachable state of honest nodes. -/
structure Honest (nodes : Finset LinkAddr) (link : LinkAddr → LinkAddr → Prop) (net : Net) : Prop where
  ok : ∀ i, TableOk (net.table i)
  first : ∀ i, ∀ id ∈ headId (net.table i), id = i.u8_0
  air : ∀ frame ∈ net.air, ∃ sender ∈ nodes, link sender frame.dst ∧
    ∃ payload, recvUc frame.data = .control payload ∧
      Told sender (net.table sender) (deserialize (cstr payload) maxTreeNodes)
  received : ∀ i, net.received i = [] ∨
    ∃ sender ∈ nodes, link sender i ∧ Told sender (net.table sender) (net.received i)
  edges : ∀ i p c, HasEdge (net.table i) p c →
    ∃ parent child, parent.u8_0 = p ∧ child.u8_0 = c ∧ EdgeOrigin nodes link net i parent child
  learned : ∀ i p c, HasEdge (net.table i) p c →
    p = i.u8_0 ∨ ∃ sender, Linked nodes link sender i ∧ HasEdge (net.table sender) p c

/-- Tables only grow. -/
def Grows (net net' : Net) : Prop :=
  ∀ i p c, HasEdge (net.table i) p c → HasEdge (net'.table i) p c

theorem Stepped.grows {nodes : Finset LinkAddr} {packetbufSize : Nat} {net net' : Net}
    {action : NetAction}
    (stepped : Stepped nodes packetbufSize net action net') : Grows net net' := by
  intro i p c edge
  rcases stepped.table i with same | ⟨-, -, merged⟩
  · rwa [same]
  · rw [merged]
    exact edge.mergeRecv _ _

theorem Told.grow {sender : LinkAddr} {recvTree : RoutingTree} {net net' : Net} (grows : Grows net net')
    (told : Told sender (net.table sender) recvTree) : Told sender (net'.table sender) recvTree :=
  ⟨told.first, fun p c edge => grows _ _ _ (told.edges p c edge)⟩

theorem EdgeOrigin.grow {nodes : Finset LinkAddr} {link : LinkAddr → LinkAddr → Prop} {net net' : Net}
    (grows : Grows net net') {i parent child : LinkAddr}
    (origin : EdgeOrigin nodes link net i parent child) : EdgeOrigin nodes link net' i parent child :=
  { origin with own := grows _ _ _ origin.own }

variable {nodes : Finset LinkAddr} {link : LinkAddr → LinkAddr → Prop} {packetbufSize : Nat}

theorem boot_table (beacons : BeaconNet) (i : LinkAddr) :
    (Net.boot beacons).table i = if i.u8_0 = 1 then [{ id := 1, children := [] }] else [] := rfl

theorem Honest.boot (beacons : BeaconNet) : Honest nodes link (Net.boot beacons) := by
  have noEdge : ∀ i p c, ¬ HasEdge ((Net.boot beacons).table i) p c := by
    rintro i p c ⟨node, member, -, listed⟩
    rw [boot_table] at member
    split at member
    · cases List.mem_singleton.mp member
      cases listed
    · cases member
  refine ⟨.boot, fun i id first => ?_, by simp [Net.boot], fun i => .inl ?_,
    fun i p c edge => absurd edge (noEdge i p c), fun i p c edge => absurd edge (noEdge i p c)⟩
  · rw [boot_table] at first
    split at first
    next isRoot =>
      cases first
      exact isRoot.symm
    · cases first
  · change deserialize (cstr []) maxTreeNodes = []
    rfl

/-- A table stays well formed, and its first entry stays the node's own. -/
theorem Honest.table_step {net net' : Net} {action : NetAction} (honest : Honest nodes link net)
    (stepped : Stepped nodes packetbufSize net action net') (i : LinkAddr) :
    TableOk (net'.table i) ∧ ∀ id ∈ headId (net'.table i), id = i.u8_0 := by
  rcases stepped.table i with same | ⟨-, -, merged⟩
  · rw [same]
    exact ⟨honest.ok i, honest.first i⟩
  · rw [merged]
    exact ⟨(honest.ok i).mergeRecv _ _, headId_mergeRecv (honest.first i) _⟩

/-- A packet in the air tells what its sender still knows. -/
theorem Honest.air_step (big : 128 ≤ packetbufSize) {net net' : Net} {action : NetAction}
    (honest : Honest nodes link net) (allowed : SendsOver packetbufSize link net action)
    (stepped : Stepped nodes packetbufSize net action net') {frame : Frame} (inAir : frame ∈ net'.air) :
    ∃ sender ∈ nodes, link sender frame.dst ∧ ∃ payload, recvUc frame.data = .control payload ∧
      Told sender (net'.table sender) (deserialize (cstr payload) maxTreeNodes) := by
  rcases stepped.air inAir with old | ⟨node, member, rfl, sent⟩
  · obtain ⟨sender, member, linked, payload, received, told⟩ := honest.air frame old
    exact ⟨sender, member, linked, payload, received, told.grow stepped.grows⟩
  · obtain ⟨payload, received, told⟩ :=
      sendRoutingTable_told big (honest.ok node).fits (honest.first node) sent
    have toBest := (sendRoutingTable_payload big sent).1.2.1
    exact ⟨node, member, toBest ▸ allowed frame sent, payload, received,
      Told.grow stepped.grows told⟩

/-- The string in `ctrl_payload` tells what its sender still knows. -/
theorem Honest.received_step {net net' : Net} {action : NetAction} (honest : Honest nodes link net)
    (stepped : Stepped nodes packetbufSize net action net') (i : LinkAddr) :
    net'.received i = [] ∨
      ∃ sender ∈ nodes, link sender i ∧ Told sender (net'.table sender) (net'.received i) := by
  rcases stepped.ctrlPayload i with same | ⟨frame, inAir, rfl, copied⟩
  · have kept : net'.received i = net.received i := by
      rw [Net.received, same]
      rfl
    rw [kept]
    exact (honest.received i).imp_right fun ⟨sender, member, linked, told⟩ =>
      ⟨sender, member, linked, told.grow stepped.grows⟩
  · obtain ⟨sender, member, linked, payload, received, told⟩ := honest.air frame inAir
    have same : payload = (net'.control frame.dst).ctrlPayload :=
      Received.control.inj (received.symm.trans copied)
    subst same
    exact .inr ⟨sender, member, linked, told.grow stepped.grows⟩

/-- An edge of a table after a step was there before, leads to the sender of what was merged, or was
    told by it. -/
theorem Honest.edge_cases {net net' : Net} {action : NetAction} (honest : Honest nodes link net)
    (stepped : Stepped nodes packetbufSize net action net') {i : LinkAddr} {p c : UInt8}
    (edge : HasEdge (net'.table i) p c) :
    HasEdge (net.table i) p c ∨
      ∃ sender, Linked nodes link sender i ∧
        ((p = i.u8_0 ∧ c = sender.u8_0) ∨ HasEdge (net.table sender) p c) := by
  rcases stepped.table i with same | ⟨live, -, merged⟩
  · exact .inl (same ▸ edge)
  · rw [merged] at edge
    rcases honest.received i with none | ⟨sender, member, linked, told⟩
    · rw [none] at edge
      exact .inl edge
    · rcases hasEdge_mergeRecv edge with old | ⟨own, first⟩ | new
      · exact .inl old
      · have toSender : c = sender.u8_0 := (Option.some.inj (told.first.symm.trans first)).symm
        exact .inr ⟨sender, ⟨member, live, linked⟩, .inl ⟨own, toSender⟩⟩
      · exact .inr ⟨sender, ⟨member, live, linked⟩, .inr (told.edges p c new)⟩

/-- Every step keeps the invariant, if control messages go over the links only. -/
theorem Honest.step (big : 128 ≤ packetbufSize) {net net' : Net} {action : NetAction}
    (honest : Honest nodes link net) (allowed : SendsOver packetbufSize link net action)
    (step : net.step nodes packetbufSize action = some net') : Honest nodes link net' := by
  have stepped := step_stepped step
  have grows := stepped.grows
  refine ⟨fun i => (honest.table_step stepped i).1, fun i => (honest.table_step stepped i).2,
    fun frame inAir => honest.air_step big allowed stepped inAir, honest.received_step stepped,
    fun i p c edge => ?_, fun i p c edge => ?_⟩
  · rcases honest.edge_cases stepped edge with old | ⟨sender, linked, ⟨rfl, rfl⟩ | known⟩
    · obtain ⟨parent, child, own, listed, origin⟩ := honest.edges i p c old
      exact ⟨parent, child, own, listed, origin.grow grows⟩
    · exact ⟨i, sender, rfl, rfl, linked, .refl, edge⟩
    · obtain ⟨parent, child, own, listed, origin⟩ := honest.edges sender p c known
      exact ⟨parent, child, own, listed,
        { origin.grow grows with below := origin.below.tail linked }⟩
  · rcases honest.edge_cases stepped edge with old | ⟨sender, linked, ⟨own, -⟩ | known⟩
    · exact (honest.learned i p c old).imp_right fun ⟨sender, linked, known⟩ =>
        ⟨sender, linked, grows _ _ _ known⟩
    · exact .inl own
    · exact .inr ⟨sender, linked, grows _ _ _ known⟩

/-- The invariant holds in every state reached by a run whose control messages go over the links. -/
theorem run_honest (big : 128 ≤ packetbufSize) {beacons : BeaconNet} {trace : List (Net × NetAction)}
    {net : Net}
    (run : Run (Net.step nodes packetbufSize) (SendsOver packetbufSize link) (Net.boot beacons)
      trace net) :
    Honest nodes link net :=
  run.invariant (.boot beacons) fun _ _ _ honest allowed step => honest.step big allowed step

/-! ### Provenance -/

/-- Every run sends its control messages over the links it has sent them over. -/
theorem run_sendsOver {ok : Net → NetAction → Prop} {start : Net} {trace : List (Net × NetAction)}
    {net : Net} (run : Run (Net.step nodes packetbufSize) ok start trace net) :
    Run (Net.step nodes packetbufSize) (SendsOver packetbufSize (SentTo packetbufSize trace)) start
      trace net := by
  refine run.guard fun (pre, action) member => ?_
  cases action with
  | sendControl node =>
      intro frame sent
      refine ⟨pre, frame, member, sent, rfl, fun null => ?_⟩
      rw [Net.sendControl, sendRoutingTable, if_pos null] at sent
      cases sent
  | radio | receive | lose | deliver => trivial

/-- In every run of honest nodes, an edge in any routing table is also in the own entry of its parent,
    and its child has once sent a control message to that parent, its best parent then. -/
theorem edge_provenance (big : 128 ≤ packetbufSize) {trace : List (Net × NetAction)} {net : Net}
    (run : Run (Net.step nodes packetbufSize) anyStep (Net.boot BeaconNet.cold) trace net)
    (a : LinkAddr) (p c : UInt8) (edge : HasEdge (net.table a) p c) :
    ∃ parent ∈ nodes, ∃ child ∈ nodes, parent.u8_0 = p ∧ child.u8_0 = c ∧
      c ∈ childrenOf (net.table parent) p ∧ SentTo packetbufSize trace child parent := by
  have honest := run_honest big (run_sendsOver run)
  obtain ⟨parent, child, rfl, rfl, origin⟩ := honest.edges a p c edge
  exact ⟨parent, origin.linked.parent_mem, child, origin.linked.child_mem, rfl, rfl,
    edge_of_hasEdge (honest.ok parent).ids origin.own, origin.linked.link⟩

/-- Node 2 elects node 1 and reports to it. -/
def firstReport : List NetAction :=
  [.radio (.beacon ⟨1, 0⟩ [(⟨2, 0⟩, -10)]), .sendControl ⟨2, 0⟩,
    .receive ⟨⟨2, 0⟩, ⟨1, 0⟩, [uControl, ch '2', ch ':', ch ';', 0]⟩ true, .deliver ⟨1, 0⟩]

/-- After the first report node 1 has the edge to node 2, which has sent to it. -/
theorem edge_provenance_firstReport :
    ∃ trace net, Run (Net.step {⟨1, 0⟩, ⟨2, 0⟩} 128) anyStep (Net.boot BeaconNet.cold) trace net ∧
      net.table ⟨1, 0⟩ = [⟨1, [2]⟩] ∧
      ∃ parent ∈ ({⟨1, 0⟩, ⟨2, 0⟩} : Finset LinkAddr), ∃ child ∈ ({⟨1, 0⟩, ⟨2, 0⟩} : Finset LinkAddr),
        parent.u8_0 = 1 ∧ child.u8_0 = 2 ∧ 2 ∈ childrenOf (net.table parent) 1 ∧
          SentTo 128 trace child parent := by
  have reported : ((execute (Net.step {⟨1, 0⟩, ⟨2, 0⟩} 128) (Net.boot BeaconNet.cold) firstReport).map
      fun net => net.table ⟨1, 0⟩) = some [⟨1, [2]⟩] := by
    decide +kernel
  obtain ⟨net, executed, table⟩ := Option.map_eq_some_iff.mp reported
  have run := Run.of_execute anyStep (fun _ _ _ => trivial) executed
  have edge : HasEdge (net.table ⟨1, 0⟩) 1 2 := by
    rw [table]
    exact ⟨⟨1, [2]⟩, by decide, rfl, by decide⟩
  exact ⟨_, net, run, table, edge_provenance (by decide) run ⟨1, 0⟩ 1 2 edge⟩

end TreeRssi
