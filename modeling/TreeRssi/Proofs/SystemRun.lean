/-
Module: TreeRssi.Proofs.SystemRun
Layer: Proofs
Purpose: The data plane of the whole program as a flow of tokens: the queued entries of all nodes and the
  packets in the air. Every step of the program is a run of the flow, whatever the control plane does
  meanwhile, so every run of the program is one of the flow; what is proved of all flows holds of it.
Imports: TreeRssi.Proofs.SystemFlow, TreeRssi.Proofs.Provenance
Trusted boundary: none
Main exports: System.flow, SystemInv, Happens, SystemStepped, system_stepped, SystemInv.step_net,
  SystemInv.step_data, SystemInv.step, run_flow, netTrace, run_net, planes_apart
Open obligations: none
-/
import TreeRssi.Proofs.Provenance
import TreeRssi.Proofs.SystemFlow

namespace TreeRssi

open CText LabelledRun TokenFlow

variable {nodes : Finset LinkAddr} {packetbufSize : Nat}

/-! ### The flow of the whole program -/

/-- The packets on the air, and what the log knows. -/
def worldFlow (air : List Frame) (log : SystemLog) : Flow LinkAddr PktEntry where
  born := (log.born : List _)
  queued := 0
  air := airTokens air
  delivered := 0
  dropped := 0
  lost := (log.lost : List _)
  moves := 0

/-- All tokens of the program. -/
def System.flow (nodes : Finset LinkAddr) (s : System) : Flow LinkAddr PktEntry :=
  worldFlow s.air s.log + nodes.sum fun i => nodeFlow i (s.data i)

/-- What holds in every state of the data plane. -/
structure SystemInv (s : System) : Prop where
  accounted : ∀ i, Accounted i (s.data i)
  queued : ∀ i, ∀ pe ∈ (s.data i).view.pktList, Generated pe
  air : ∀ frame ∈ s.air, DataFrame frame
  control : ∀ frame ∈ s.net.air, ∃ payload, recvUc frame.data = .control payload

/-- What a step of the program does to tokens. -/
inductive Happens (nodes : Finset LinkAddr) (s : System) :
    SystemAction → FlowAction LinkAddr PktEntry → Prop where
  | generated {node : LinkAddr} {posted : Bool} {pe : PktEntry} (member : node ∈ nodes)
      (origin : node.u8_0 = origen) (generated : Generated pe) :
      Happens nodes s (.generate node posted) (.inject node pe)
  | arrived {frame : Frame} {posted : Bool} {pe : PktEntry} (member : frame.dst ∈ nodes)
      (token : frameToken frame = some (frame.dst, pe)) (room : (s.data frame.dst).pktList.length < pktMem) :
      Happens nodes s (.receive frame posted) (.arrive frame.dst pe)
  | refused {frame : Frame} {posted : Bool} {pe : PktEntry} (member : frame.dst ∈ nodes)
      (inAir : frame ∈ s.air) (token : frameToken frame = some (frame.dst, pe))
      (full : pktMem ≤ (s.data frame.dst).pktList.length) :
      Happens nodes s (.receive frame posted) (.lose frame.dst pe)
  | lost {frame : Frame} {pe : PktEntry} (token : frameToken frame = some (frame.dst, pe)) :
      Happens nodes s (.lose frame) (.lose frame.dst pe)
  | served {node : LinkAddr} {fuel : Nat} {action : FlowAction LinkAddr PktEntry} (member : node ∈ nodes)
      (serves : Served fuel (s.net.table node) (s.net.best node) node action) :
      Happens nodes s (.route node fuel) action

section
variable {s s' : System} {i : LinkAddr}

/-- One node beside the others. -/
theorem System.flow_at (s : System) (member : i ∈ nodes) : s.flow nodes =
    worldFlow s.air s.log + (nodeFlow i (s.data i) + (nodes.erase i).sum fun j => nodeFlow j (s.data j)) := by
  rw [System.flow, ← Finset.add_sum_erase nodes _ member]

/-- The same, after a change of that node. -/
theorem System.flow_setData (s : System) (member : i ∈ nodes) (p : PacketNode) (net : Net)
    (air : List Frame) (log : SystemLog) :
    System.flow nodes { s.setData i p with net := net, air := air, log := log } =
      worldFlow air log + (nodeFlow i p + (nodes.erase i).sum fun j => nodeFlow j (s.data j)) := by
  rw [System.flow_at _ member]
  simp only [System.setData_self]
  congr 2
  apply Finset.sum_congr rfl
  intro j other
  rw [System.setData_other (Finset.ne_of_mem_erase other)]

theorem worldFlow_arrive {air : List Frame} {frame : Frame} (inAir : frame ∈ air) {pe : PktEntry}
    (token : frameToken frame = some (frame.dst, pe)) (log : SystemLog) :
    (worldFlow air log).step (.arrive frame.dst pe) =
      some (worldFlow (air.erase frame) log + .ofQueued {(frame.dst, pe)}) := by
  have split := airTokens_erase inAir token
  have there : (frame.dst, pe) ∈ (worldFlow air log).air := by
    change _ ∈ airTokens air
    rw [split]
    exact Multiset.mem_cons_self _ _
  rw [Flow.step, if_pos there]
  congr 1
  ext1 <;> simp [worldFlow, split, Flow.ofQueued, Flow.empty]

theorem worldFlow_lose {air : List Frame} {frame : Frame} (inAir : frame ∈ air) {pe : PktEntry}
    (token : frameToken frame = some (frame.dst, pe)) (log : SystemLog) :
    (worldFlow air log).step (.lose frame.dst pe) =
      some (worldFlow (air.erase frame) { log with lost := (frame.dst, pe) :: log.lost }) := by
  have split := airTokens_erase inAir token
  have there : (frame.dst, pe) ∈ (worldFlow air log).air := by
    change _ ∈ airTokens air
    rw [split]
    exact Multiset.mem_cons_self _ _
  rw [Flow.step, if_pos there]
  congr 1
  ext1 <;> simp [worldFlow, split]

theorem worldFlow_inject (air : List Frame) (log : SystemLog) (node : LinkAddr) (pe : PktEntry) :
    (worldFlow air log).step (.inject node pe) =
      some (worldFlow air { log with born := (node, pe) :: log.born } + .ofQueued {(node, pe)}) := by
  rw [Flow.step]
  congr 1
  ext1 <;> simp [worldFlow, Flow.ofQueued, Flow.empty]

/-! ### One step -/

/-- The outcomes of a step of the program. -/
inductive SystemStepped (nodes : Finset LinkAddr) (packetbufSize : Nat) (s : System) :
    SystemAction → System → Prop where
  | net {action : NetAction} {s' : System} (stepped : s.step nodes packetbufSize (.net action) = some s') :
      SystemStepped nodes packetbufSize s (.net action) s'
  | generated {node : LinkAddr} {posted : Bool} (live : s.net.beacons.Live nodes node) :
      SystemStepped nodes packetbufSize s (.generate node posted)
        { s.setData node (s.generated node posted) with
          log := { s.log with born := s.queuedSince node (s.generated node posted) ++ s.log.born } }
  | received {frame : Frame} {posted : Bool} (inAir : frame ∈ s.air)
      (live : s.net.beacons.Live nodes frame.dst) :
      SystemStepped nodes packetbufSize s (.receive frame posted)
        { s.setData frame.dst (s.received frame posted) with
          net := s.net.setControl frame.dst ((s.net.control frame.dst).receive frame.data posted)
          air := s.air.erase frame
          log := { s.log with
            lost := (if s.queuedSince frame.dst (s.received frame posted) = [] then
              (frameToken frame).toList else []) ++ s.log.lost } }
  | lost {frame : Frame} (inAir : frame ∈ s.air) :
      SystemStepped nodes packetbufSize s (.lose frame)
        { s with
          air := s.air.erase frame
          log := { s.log with lost := (frameToken frame).toList ++ s.log.lost } }
  | routed {node : LinkAddr} {fuel : Nat} {p : PacketNode} (live : s.net.beacons.Live nodes node)
      (next : (s.data node).routingUpstreamDownstream packetbufSize node fuel (s.net.table node)
        (s.net.best node) = some p) :
      SystemStepped nodes packetbufSize s (.route node fuel)
        { s.setData node p with air := fresh (s.data node).log.sent p.log.sent ++ s.air }

theorem system_stepped {action : SystemAction} (stepped : s.step nodes packetbufSize action = some s') :
    SystemStepped nodes packetbufSize s action s' := by
  cases action with
  | net action => exact .net stepped
  | generate node posted =>
      obtain ⟨live, same⟩ := Option.ite_none_right_eq_some.mp stepped
      cases same
      exact .generated live
  | receive frame posted =>
      obtain ⟨⟨inAir, live⟩, same⟩ := Option.ite_none_right_eq_some.mp stepped
      cases same
      exact .received inAir live
  | lose frame =>
      obtain ⟨inAir, same⟩ := Option.ite_none_right_eq_some.mp stepped
      cases same
      exact .lost inAir
  | route node fuel =>
      obtain ⟨live, mapped⟩ := Option.ite_none_right_eq_some.mp stepped
      obtain ⟨p, next, same⟩ := Option.map_eq_some_iff.mp mapped
      cases same
      exact .routed live next

/-- What every step of the program has to show: it keeps the invariant, and is a run of the flow, in which
    something happens if it is a reception. -/
def Flows (nodes : Finset LinkAddr) (s : System) (action : SystemAction) (s' : System) : Prop :=
  SystemInv s' ∧ ∃ segment,
    Run Flow.step (fun _ => Happens nodes s action) (s.flow nodes) segment (s'.flow nodes) ∧
      ∀ frame posted, action = .receive frame posted → segment ≠ []

theorem System.setData_same (s : System) (node : LinkAddr) : s.setData node (s.data node) = s := by
  have same : (s.setData node (s.data node)).data = s.data := by
    funext other
    by_cases here : other = node
    · subst here
      exact s.setData_self other _
    · exact System.setData_other here
  change System.mk s.net (s.setData node (s.data node)).data s.air s.log = s
  rw [same]

/-- What a change of one node leaves as it was there, it leaves as it was everywhere. -/
theorem System.setData_keeps {β : Type} (f : PacketNode → β) {p : PacketNode} (same : f p = f (s.data i))
    (j : LinkAddr) : f ((s.setData i p).data j) = f (s.data j) := by
  by_cases here : j = i
  · rw [here, System.setData_self, same]
  · rw [System.setData_other here]

/-- The data planes of all nodes after a change of one. -/
theorem SystemInv.setData (inv : SystemInv s) {p : PacketNode} (accounted : Accounted i p)
    (queued : ∀ pe ∈ p.view.pktList, Generated pe) (j : LinkAddr) :
    Accounted j ((s.setData i p).data j) ∧ ∀ pe ∈ ((s.setData i p).data j).view.pktList, Generated pe := by
  by_cases here : j = i
  · subst here
    rw [System.setData_self]
    exact ⟨accounted, queued⟩
  · rw [System.setData_other here]
    exact ⟨inv.accounted j, inv.queued j⟩

/-- The step of the neighbour or the control plane, if it is one. -/
def SystemAction.net? : SystemAction → Option NetAction
  | .net action => some action
  | _ => none

/-- A step of the neighbour or the control plane leaves the data plane alone: its packets are not data
    packets. -/
theorem SystemInv.step_net (inv : SystemInv s) {action : NetAction}
    (stepped : s.step nodes packetbufSize (.net action) = some s') :
    s.net.step nodes packetbufSize action = some s'.net ∧ s' = { s with net := s'.net } := by
  obtain ⟨net, step, rest⟩ := Option.map_eq_some_iff.mp stepped
  have after : { s with net := net } = s' := by
    cases action with
    | receive frame posted =>
        obtain ⟨⟨inAir, -⟩, -⟩ := Option.ite_none_right_eq_some.mp step
        obtain ⟨payload, received⟩ := inv.control frame inAir
        have same : s.received frame posted = s.data frame.dst := by
          rw [System.received, receive_control _ _ _ received, post_self]
        dsimp only at rest
        rwa [same, System.setData_same] at rest
    | radio | sendControl | lose | deliver => exact rest
  subst after
  exact ⟨step, rfl⟩

/-- A step of the data plane leaves the neighbour and the control plane alone: a data packet is none of
    theirs. -/
theorem SystemInv.step_data (inv : SystemInv s) {action : SystemAction} (data : action.net? = none)
    (stepped : s.step nodes packetbufSize action = some s') : s'.net = s.net := by
  cases system_stepped stepped with
  | net => cases data
  | generated | lost | routed => rfl
  | @received frame posted inAir =>
      obtain ⟨pe, generated, bytes⟩ := inv.air frame inAir
      obtain ⟨msg, received, -⟩ := generated.read bytes
      change s.net.setControl frame.dst ((s.net.control frame.dst).receive frame.data posted) = s.net
      have same : (s.net.control frame.dst).receive frame.data posted = s.net.control frame.dst := by
        rw [ControlState.receive, received]
      have control : (s.net.setControl frame.dst (s.net.control frame.dst)).control = s.net.control := by
        funext other
        by_cases here : other = frame.dst
        · rw [here, Net.setControl_self]
        · exact Net.setControl_other here
      rw [same]
      change Net.mk s.net.beacons (s.net.setControl frame.dst (s.net.control frame.dst)).control s.net.air =
        s.net
      rw [control]

/-- So it leaves the tokens alone. -/
theorem SystemInv.net (big : 128 ≤ packetbufSize) (inv : SystemInv s) {action : NetAction}
    (stepped : s.step nodes packetbufSize (.net action) = some s') : Flows nodes s (.net action) s' := by
  obtain ⟨step, after⟩ := inv.step_net stepped
  generalize s'.net = net at step after
  subst after
  refine ⟨⟨inv.accounted, inv.queued, inv.air, fun frame inAir => ?_⟩, [], .nil,
    fun _ _ other => by cases other⟩
  rcases (step_stepped step).air inAir with old | ⟨node, -, -, sent⟩
  · exact inv.control frame old
  · obtain ⟨-, payload, text, residue, m, received, -⟩ := sendRoutingTable_payload big sent
    exact ⟨payload, received⟩

/-- A turn of `generate_pkt_dst`. -/
theorem SystemInv.generate (inv : SystemInv s) {posted : Bool}
    (stepped : s.step nodes packetbufSize (.generate i posted) = some s') :
    Flows nodes s (.generate i posted) s' := by
  cases system_stepped stepped with
  | generated live =>
      have member : i ∈ nodes := live.1
      have accounted : Accounted i (s.generated i posted) := (inv.accounted i).generated.post posted
      by_cases origin : i.u8_0 = origen
      · let pe := numberedEntry (u16 ((s.data i).seqNum + 1)) origen destino
        have new : Generated pe := ⟨_, Nat.mod_lt _ (by decide), rfl⟩
        have offered : Offered (s.data i) pe (s.generated i posted) :=
          (generatePktDst_offered (inv.accounted i).owned origin).post posted
        have planes := inv.setData accounted (offered.generated new (inv.queued i))
        refine ⟨⟨fun j => (planes j).1, fun j => (planes j).2, inv.air, inv.control⟩, ?_⟩
        rw [System.flow_at s member, System.queuedSince]
        rcases offered.flow i with ⟨-, nothing, flow⟩ | ⟨-, one, flow⟩
        · rw [nothing]
          refine ⟨[], ?_, fun _ _ other => by cases other⟩
          rw [← flow]
          exact (System.flow_setData s member (s.generated i posted) s.net s.air s.log).symm ▸ .nil
        · rw [one]
          have inject := Flow.step_frame (worldFlow_inject s.air s.log i pe)
            (nodeFlow i (s.data i) + (nodes.erase i).sum fun j => nodeFlow j (s.data j))
          refine ⟨_, Run.nil.snoc (Happens.generated member origin new) (inject.trans (congrArg some ?_)),
            fun _ _ other => by cases other⟩
          refine Eq.trans ?_ (System.flow_setData s member (s.generated i posted) s.net s.air
            { s.log with born := (i, pe) :: s.log.born }).symm
          rw [flow]
          abel
      · have same : s.generated i posted = s.data i := by
          rw [System.generated, PacketNode.generatePktDst, if_neg origin, post_self]
        have unchanged : s.queuedSince i (s.data i) = [] := by rw [System.queuedSince, fresh_self]; rfl
        rw [same, System.setData_same, unchanged]
        exact ⟨inv, [], .nil, fun _ _ other => by cases other⟩

/-- A packet in the air carries an entry, and offers it to its receiver. -/
theorem SystemInv.offered (inv : SystemInv s) {frame : Frame} (inAir : frame ∈ s.air) (posted : Bool) :
    ∃ pe, Generated pe ∧ frameToken frame = some (frame.dst, pe) ∧
      Offered (s.data frame.dst) pe (s.received frame posted) := by
  obtain ⟨pe, new, bytes⟩ := inv.air frame inAir
  obtain ⟨msg, received, read, token⟩ := new.read bytes
  have offered := receive_offered (inv.accounted frame.dst).owned frame.dst frame.src received
  rw [read] at offered
  exact ⟨pe, new, token, offered.post posted⟩

/-- The reception of a data packet: its token arrives, or finds no block. -/
theorem SystemInv.receive (inv : SystemInv s) {frame : Frame} {posted : Bool}
    (stepped : s.step nodes packetbufSize (.receive frame posted) = some s') :
    Flows nodes s (.receive frame posted) s' := by
  cases system_stepped stepped with
  | received inAir live =>
      have member : frame.dst ∈ nodes := live.1
      obtain ⟨pe, new, token, offered⟩ := inv.offered inAir posted
      have accounted : Accounted frame.dst (s.received frame posted) :=
        ((inv.accounted frame.dst).received _ _).post posted
      have planes := inv.setData accounted (offered.generated new (inv.queued frame.dst))
      have air : ∀ f ∈ s.air.erase frame, DataFrame f := fun f rest => inv.air f (List.mem_of_mem_erase rest)
      refine ⟨⟨fun j => (planes j).1, fun j => (planes j).2, air, inv.control⟩, ?_⟩
      rw [System.flow_at s member, System.queuedSince]
      rcases offered.flow frame.dst with ⟨full, nothing, flow⟩ | ⟨room, one, flow⟩
      · rw [nothing, token]
        have lose := Flow.step_frame (worldFlow_lose inAir token s.log)
          (nodeFlow frame.dst (s.data frame.dst) + (nodes.erase frame.dst).sum fun j => nodeFlow j (s.data j))
        refine ⟨_, Run.nil.snoc (Happens.refused member inAir token full) (lose.trans (congrArg some ?_)),
          fun _ _ _ => List.cons_ne_nil _ _⟩
        refine Eq.trans ?_ (System.flow_setData s member (s.received frame posted) _ (s.air.erase frame)
          { s.log with lost := (frame.dst, pe) :: s.log.lost }).symm
        rw [flow]
      · rw [one, token]
        have arrive := Flow.step_frame (worldFlow_arrive inAir token s.log)
          (nodeFlow frame.dst (s.data frame.dst) + (nodes.erase frame.dst).sum fun j => nodeFlow j (s.data j))
        refine ⟨_, Run.nil.snoc (Happens.arrived member token room) (arrive.trans (congrArg some ?_)),
          fun _ _ _ => List.cons_ne_nil _ _⟩
        refine Eq.trans ?_ (System.flow_setData s member (s.received frame posted) _ (s.air.erase frame)
          s.log).symm
        rw [flow]
        abel

/-- The loss of a data packet on the air. -/
theorem SystemInv.lose (inv : SystemInv s) {frame : Frame}
    (stepped : s.step nodes packetbufSize (.lose frame) = some s') : Flows nodes s (.lose frame) s' := by
  cases system_stepped stepped with
  | lost inAir =>
      obtain ⟨pe, new, bytes⟩ := inv.air frame inAir
      obtain ⟨-, -, -, token⟩ := new.read bytes
      refine ⟨⟨inv.accounted, inv.queued, fun f rest => inv.air f (List.mem_of_mem_erase rest),
        inv.control⟩, ?_⟩
      rw [token]
      have lose := Flow.step_frame (worldFlow_lose inAir token s.log)
        (nodes.sum fun j => nodeFlow j (s.data j))
      exact ⟨_, Run.nil.snoc (Happens.lost token) lose, fun _ _ other => by cases other⟩

/-- The delivery of an event: the node serves all its tokens. -/
theorem SystemInv.route (big : 128 ≤ packetbufSize) (inv : SystemInv s) {fuel : Nat}
    (stepped : s.step nodes packetbufSize (.route i fuel) = some s') :
    Flows nodes s (.route i fuel) s' := by
  cases system_stepped stepped with
  | @routed _ _ p live next =>
      have member : i ∈ nodes := live.1
      obtain ⟨accounted, empty, -⟩ := (inv.accounted i).route next
      obtain ⟨pending, -, routed⟩ := route_some next
      have queued : ∀ pe ∈ (s.data i).pktList, Generated ((s.data i).block pe) := fun pe listed =>
        inv.queued i _ (List.mem_map_of_mem listed)
      obtain ⟨frames, segment, sent, data, run⟩ :=
        routeAll_flow big (s := { s.data i with pending := pending }) queued routed
      have planes := inv.setData accounted (p := p) (by
        intro pe listed
        rw [PacketNode.view, empty] at listed
        cases listed)
      have air : fresh (s.data i).log.sent p.log.sent ++ s.air = frames ++ s.air := by rw [sent, fresh_append]
      rw [air]
      refine ⟨⟨fun j => (planes j).1, fun j => (planes j).2, fun f there => ?_, inv.control⟩, ?_⟩
      · exact (List.mem_append.mp there).elim (data f) (inv.air f)
      · obtain ⟨segment', beside⟩ := Flow.run_frame run
          (worldFlow s.air s.log + (nodes.erase i).sum fun j => nodeFlow j (s.data j))
        have start : s.flow nodes = nodeFlow i { s.data i with pending := pending } +
            (worldFlow s.air s.log + (nodes.erase i).sum fun j => nodeFlow j (s.data j)) := by
          rw [System.flow_at s member]
          change _ = nodeFlow i (s.data i) + _
          abel
        have after : worldFlow (frames ++ s.air) s.log = worldFlow s.air s.log + .ofAir (airTokens frames) := by
          ext1 <;> simp [worldFlow, Flow.ofAir, Flow.empty, airTokens_append, add_comm]
        have finish : System.flow nodes { s.setData i p with air := frames ++ s.air } =
            nodeFlow i p + .ofAir (airTokens frames) +
              (worldFlow s.air s.log + (nodes.erase i).sum fun j => nodeFlow j (s.data j)) := by
          refine (System.flow_setData s member p s.net (frames ++ s.air) s.log).trans ?_
          rw [after]
          abel
        rw [start, finish]
        exact ⟨segment', beside.weaken fun _ _ _ served _ => .served member served,
          fun _ _ other => by cases other⟩

/-- Every step of the program. -/
theorem SystemInv.step (big : 128 ≤ packetbufSize) (inv : SystemInv s) {action : SystemAction}
    (stepped : s.step nodes packetbufSize action = some s') : Flows nodes s action s' := by
  cases action with
  | net action => exact inv.net big stepped
  | generate node posted => exact inv.generate stepped
  | receive frame posted => exact inv.receive stepped
  | lose frame => exact inv.lose stepped
  | route node fuel => exact inv.route big stepped

/-! ### Runs -/

theorem SystemInv.boot : SystemInv System.boot where
  accounted := Accounted.boot
  queued _ _ listed := by cases listed
  air _ inAir := by cases inAir
  control _ inAir := by cases inAir

theorem flow_boot (nodes : Finset LinkAddr) : System.boot.flow nodes = .empty := by
  rw [System.flow, Finset.sum_eq_zero fun i _ => ?_]
  · rfl
  · rfl

end

/-- What all steps of the program do to tokens if they meet a condition, as a guard of the flow. -/
def Allows (nodes : Finset LinkAddr) (I : System → Prop) (ok : System → SystemAction → Prop)
    (_ : Flow LinkAddr PktEntry) (move : FlowAction LinkAddr PktEntry) : Prop :=
  ∃ s action, I s ∧ SystemInv s ∧ ok s action ∧ Happens nodes s action move

/-- In every state of a run under a condition the data plane is in order, and the run is one of the flow
    as well. -/
theorem run_flow (big : 128 ≤ packetbufSize) {I : System → Prop} {ok : System → SystemAction → Prop}
    {s₀ s : System} {trace : List (System × SystemAction)} (inv : SystemInv s₀) (start : I s₀)
    (kept : ∀ s action s', I s → ok s action → s.step nodes packetbufSize action = some s' → I s')
    (run : Run (System.step nodes packetbufSize) ok s₀ trace s) :
    (I s ∧ SystemInv s) ∧
      ∃ moves, Run Flow.step (Allows nodes I ok) (s₀.flow nodes) moves (s.flow nodes) := by
  refine run.refine (System.flow nodes) (I := fun s => I s ∧ SystemInv s) ⟨start, inv⟩
    fun s action s' both allowed stepped => ?_
  obtain ⟨inv', segment, moves, -⟩ := both.2.step big stepped
  exact ⟨⟨kept s action s' both.1 allowed stepped, inv'⟩, segment,
    moves.weaken fun _ _ _ happens _ => ⟨s, action, both.1, both.2, allowed, happens⟩⟩

theorem run_inv (big : 128 ≤ packetbufSize) {ok : System → SystemAction → Prop} {s₀ s : System}
    {trace : List (System × SystemAction)} (inv : SystemInv s₀)
    (run : Run (System.step nodes packetbufSize) ok s₀ trace s) : SystemInv s :=
  run.invariant inv fun _ _ _ inv _ stepped => (inv.step big stepped).1

/-! ### The planes -/

/-- The neighbour and the control plane in a history. -/
def netTrace (trace : List (System × SystemAction)) : List (Net × NetAction) :=
  trace.filterMap fun e => e.2.net?.map fun action => (e.1.net, action)

theorem netTrace_append (later earlier : List (System × SystemAction)) :
    netTrace (later ++ earlier) = netTrace later ++ netTrace earlier := List.filterMap_append

/-- In a run of the program the neighbour and the control plane run as they do without a data plane. -/
theorem run_net (big : 128 ≤ packetbufSize) {ok : System → SystemAction → Prop}
    {allow : Net → NetAction → Prop} (allowed : ∀ s action, ok s (.net action) → allow s.net action)
    {s₀ s : System} {trace : List (System × SystemAction)} (inv : SystemInv s₀)
    (run : Run (System.step nodes packetbufSize) ok s₀ trace s) :
    Run (Net.step nodes packetbufSize) allow s₀.net (netTrace trace) s.net := by
  refine run.project System.net SystemAction.net? inv (fun s action s' inv _ stepped => (inv.step big stepped).1)
    (fun s action s' control inv fine stepped label => ?_)
    (fun s action s' inv _ stepped label => inv.step_data label stepped)
  cases action with
  | net own =>
      cases label
      exact ⟨allowed s _ fine, (inv.step_net stepped).1⟩
  | generate | receive | lose | route => cases label

/-- In every run of the program the neighbour and the control plane run as they do without a data plane,
    and no step of the one changes anything of the other. So what they reach depends on their own steps
    only: two runs with the same of these agree on it, whatever packets were generated, received, lost or
    refused in between. A search that does not end is no step of a run; it stops its node. -/
theorem planes_apart (big : 128 ≤ packetbufSize) {s t : System} {trace other : List (System × SystemAction)}
    (run : Run (System.step nodes packetbufSize) anyStep System.boot trace s)
    (run' : Run (System.step nodes packetbufSize) anyStep System.boot other t)
    (same : (trace.filterMap fun e => e.2.net?) = other.filterMap fun e => e.2.net?) :
    Run (Net.step nodes packetbufSize) anyStep (Net.boot BeaconNet.cold) (netTrace trace) s.net ∧
    (∀ action after, s.step nodes packetbufSize action = some after →
      if action.net?.isSome then after = { s with net := after.net } else after.net = s.net) ∧
    t.net = s.net := by
  have net : Run (Net.step nodes packetbufSize) anyStep (Net.boot BeaconNet.cold) (netTrace trace) s.net :=
    run_net big (fun _ _ _ => trivial) .boot run
  have net' : Run (Net.step nodes packetbufSize) anyStep (Net.boot BeaconNet.cold) (netTrace other) t.net :=
    run_net big (fun _ _ _ => trivial) .boot run'
  have actions : ∀ trace : List (System × SystemAction),
      (netTrace trace).map Prod.snd = trace.filterMap fun e => e.2.net? := by
    intro trace
    simp only [netTrace, List.map_filterMap, Option.map_map, Function.comp_def, Option.map_id']
  have inv : SystemInv s := run_inv big .boot run
  refine ⟨net, fun action after stepped => ?_, ?_⟩
  · cases label : action.net? with
    | none => exact inv.step_data label stepped
    | some control =>
        cases action with
        | net own => exact (inv.step_net stepped).2
        | generate | receive | lose | route => cases label
  · have ends := net.executes
    have ends' := net'.executes
    rw [actions, same] at ends
    rw [actions, ends] at ends'
    exact (Option.some.inj ends').symm

/-- Node 8 hears a beacon of node 1, and puts a packet for it on the air. -/
def handedOver : List SystemAction :=
  [.net (.radio (.beacon ⟨1, 0⟩ [(⟨8, 0⟩, -10)])), .generate ⟨8, 0⟩ true, .route ⟨8, 0⟩ 2]

theorem planes_apart_handedOver :
    ∃ s t, execute (System.step {⟨1, 0⟩, ⟨8, 0⟩} 128) System.boot handedOver = some s ∧
      execute (System.step {⟨1, 0⟩, ⟨8, 0⟩} 128) System.boot (handedOver.take 1) = some t ∧
      s.air.length = 1 ∧ t.air.length = 0 ∧ t.net = s.net := by
  have ends : ((execute (System.step {⟨1, 0⟩, ⟨8, 0⟩} 128) System.boot handedOver).map fun s =>
      s.air.length) = some 1 := by
    decide +kernel
  have ends' : ((execute (System.step {⟨1, 0⟩, ⟨8, 0⟩} 128) System.boot (handedOver.take 1)).map fun s =>
      s.air.length) = some 0 := by
    decide +kernel
  have same : ((history (System.step {⟨1, 0⟩, ⟨8, 0⟩} 128) System.boot handedOver).filterMap
      fun e => e.2.net?) = (history (System.step {⟨1, 0⟩, ⟨8, 0⟩} 128) System.boot
        (handedOver.take 1)).filterMap fun e => e.2.net? := by
    decide +kernel
  obtain ⟨s, executed, air⟩ := Option.map_eq_some_iff.mp ends
  obtain ⟨t, executed', air'⟩ := Option.map_eq_some_iff.mp ends'
  have run := Run.of_execute anyStep (fun _ _ _ => trivial) executed
  have run' := Run.of_execute anyStep (fun _ _ _ => trivial) executed'
  exact ⟨s, t, executed, executed', air, air', (planes_apart (by decide) run run' same).2.2⟩

end TreeRssi
