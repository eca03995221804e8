/-
Module: TreeRssi.Proofs.Drain
Layer: Proofs
Purpose: The data plane drains. While the routes are those of a tree, no packet is born or lost on the air,
  every event is posted, and the packets in transit are no more than a node has blocks, no packet is refused
  and every step of the data plane does some of the work that is left; as long as a packet is in transit
  such a step is possible. So whatever order the steps are taken in, all packets reach their goals.
Imports: TreeRssi.Proofs.SteadyRoutes
Trusted boundary: none
Main exports: Posted, run_awake, nextHop_mem, run_addressed, Draining, Drainable, Happens.drains,
  Drainable.step, System.toDo, Drainable.enabled, in_transit_drains
Open obligations: none
-/
import TreeRssi.Proofs.SteadyRoutes

namespace TreeRssi

open CText LabelledRun TokenFlow

variable {nodes : Finset LinkAddr} {T : ParentTree UInt8} {packetbufSize : Nat} {s s' s₀ : System}
  {action : SystemAction} {trace : List (System × SystemAction)}

/-! ### Events -/

/-- `process_post` finds room. -/
def Posted (_ : System) : SystemAction → Prop
  | .generate _ posted | .receive _ posted => posted = true
  | _ => True

/-- Where every event is posted, a node with queued packets has one pending. -/
theorem run_awake (big : 128 ≤ packetbufSize)
    (run : Run (System.step nodes packetbufSize) Posted s₀ trace s) (inv : SystemInv s₀)
    (awake : ∀ i, Awake (s₀.data i)) : SystemInv s ∧ ∀ i, Awake (s.data i) := by
  refine run.invariant (I := fun s => SystemInv s ∧ ∀ i, Awake (s.data i)) ⟨inv, awake⟩ ?_
  intro s action s' both posted stepped
  obtain ⟨inv, awake⟩ := both
  have replaced : ∀ (i : LinkAddr) (p : PacketNode), Awake p → ∀ j, Awake ((s.setData i p).data j) := by
    intro i p own j
    by_cases here : j = i
    · rw [here, System.setData_self]
      exact own
    · rw [System.setData_other here]
      exact awake j
  refine ⟨(inv.step big stepped).1, ?_⟩
  cases system_stepped stepped with
  | net stepped =>
      rw [(inv.step_net stepped).2]
      exact awake
  | lost => exact awake
  | @generated node posted' =>
      have there : posted' = true := posted
      subst there
      exact replaced node _ ((inv.accounted node).generatePktDst (awake node)).2
  | @received frame posted' =>
      have there : posted' = true := posted
      subst there
      exact replaced frame.dst _ ((inv.accounted frame.dst).receive (awake frame.dst) _ _).2
  | @routed node _ p _ next =>
      exact replaced node p fun queued => absurd ((inv.accounted node).route next).2.1 queued

/-! ### Next hops -/

section
variable {ok : System → SystemAction → Prop}

/-- In every run of the network each next hop is a node of it: a best parent is, and so is every child that
    a table lists. -/
theorem nextHop_mem (big : 128 ≤ packetbufSize) (addrs : PlainAddrs nodes) {net : Net}
    {steps : List (Net × NetAction)}
    (run : Run (Net.step nodes packetbufSize) anyStep (Net.boot BeaconNet.cold) steps net)
    {i next : LinkAddr} {fuel : Nat} {d : UInt8}
    (decided : routeHop fuel (net.table i) (net.best i) i.u8_0 d = some (.forward next)) :
    next ∈ nodes := by
  rcases routeHop_next decided with ⟨rfl, proper⟩ | ⟨id, proper, rfl, found⟩
  · exact run_bestParent_mem (run_beacons anyStep (fun _ _ _ => trivial) run) proper
  · have edge : HasEdge (net.table i) i.u8_0 id :=
      hasEdge_of_edge (searchForwarder_child proper found).1
    obtain ⟨parent, child, -, rfl, origin⟩ := (run_honest big (run_sendsOver run)).edges i _ _ edge
    rw [addrs.eq origin.linked.child_mem]
    exact origin.linked.child_mem

/-- So all packets in the air are for nodes of the network. -/
theorem run_addressed (big : 128 ≤ packetbufSize) (addrs : PlainAddrs nodes)
    (run : Run (System.step nodes packetbufSize) ok System.boot trace s) :
    ∀ t ∈ (s.flow nodes).air, t.1 ∈ nodes := by
  let Reached (s : System) : Prop := ∃ trace, Run (System.step nodes packetbufSize) ok System.boot trace s
  obtain ⟨-, moves, flow⟩ := run_flow (I := Reached) big .boot ⟨[], .nil⟩
    (fun _ _ _ ⟨_, earlier⟩ allowed stepped => ⟨_, earlier.snoc allowed stepped⟩) run
  rw [flow_boot] at flow
  refine flow.invariant (I := fun f => ∀ t ∈ f.air, t.1 ∈ nodes) (by simp [Flow.empty]) ?_
  intro f move f' addressed allowed stepped
  cases Flow.step_stepped stepped with
  | injected => exact addressed
  | arrived | lost => exact fun t member => addressed t (Multiset.mem_of_mem_erase member)
  | @served place pe fate there =>
      cases fate with
      | deliver | drop => exact addressed
      | forward next =>
          obtain ⟨pre, action, ⟨earlier, reached⟩, -, -, happens⟩ := allowed
          cases happens with
          | served member serves =>
              obtain ⟨entry, decision, -, same, decided⟩ := serves
              cases decision with
              | deliver | drop => cases same
              | forward nextHop =>
                  cases same
                  have net : Run (Net.step nodes packetbufSize) anyStep (Net.boot BeaconNet.cold) _ pre.net :=
                    run_net big (fun _ _ _ => trivial) .boot reached
                  exact Multiset.forall_mem_cons.mpr ⟨nextHop_mem big addrs net decided, addressed⟩

end

/-! ### A quiet network -/

/-- The step routes along the tree if it routes, and neither makes nor loses a packet, nor silences a node,
    nor fails to post an event. -/
def Draining (nodes : Finset LinkAddr) (T : ParentTree UInt8) (s : System) (action : SystemAction) : Prop :=
  RoutedAlong nodes T s action ∧ Posted s action ∧
    match action with
    | .generate _ _ | .lose _ | .net (.radio (.silence _)) => False
    | _ => True

/-- A state in which what is in transit can be served: all nodes run, packets in the air are for nodes of
    the network, and no more packets are in transit than a node has blocks. -/
structure Drainable (nodes : Finset LinkAddr) (s : System) : Prop where
  inv : SystemInv s
  awake : ∀ i, Awake (s.data i)
  live : ∀ i ∈ nodes, s.net.beacons.Live nodes i
  addressed : ∀ t ∈ (s.flow nodes).air, t.1 ∈ nodes
  few : Multiset.card (s.flow nodes).queued + Multiset.card (s.flow nodes).air ≤ pktMem

/-- On the routes, and neither a birth nor a loss. -/
def Drains (nodes : Finset LinkAddr) (T : ParentTree UInt8) : FlowAction LinkAddr PktEntry → Prop
  | .inject _ _ | .lose _ _ => False
  | move => OnRoute nodes T move

/-- The packets that are queued at a node are not more than those that are queued. -/
theorem queued_le {i : LinkAddr} (member : i ∈ nodes) (s : System) :
    (s.data i).pktList.length ≤ Multiset.card (s.flow nodes).queued := by
  rw [flow_queued, Multiset.card_sum]
  have one := Finset.single_le_sum (f := fun i => Multiset.card (nodeFlow i (s.data i)).queued)
    (fun _ _ => Nat.zero_le _) member
  simpa [nodeFlow, PacketNode.view] using one

/-- In such a state no packet is refused. -/
theorem Happens.drains {move : FlowAction LinkAddr PktEntry} (happens : Happens nodes s action move)
    (addrs : PlainAddrs nodes) (drainable : Drainable nodes s) (draining : Draining nodes T s action) :
    Drains nodes T move := by
  have onRoute := happens.onRoute addrs draining.1
  cases happens with
  | generated => exact draining.2.2.elim
  | lost => exact draining.2.2.elim
  | arrived => trivial
  | @refused frame posted pe member inAir token full =>
      have queued := queued_le member s
      have flying : 0 < Multiset.card (s.flow nodes).air := by
        rw [flow_air, airTokens_erase inAir token, Multiset.card_cons]
        exact Nat.succ_pos _
      have few := drainable.few
      omega
  | served member serves =>
      obtain ⟨pe, decision, -, rfl, -⟩ := serves
      exact onRoute

/-- What the steps of a quiet network do. -/
theorem Drainable.moves (big : 128 ≤ packetbufSize) (addrs : PlainAddrs nodes)
    (drainable : Drainable nodes s) (draining : Draining nodes T s action)
    (stepped : s.step nodes packetbufSize action = some s') :
    SystemInv s' ∧ ∃ segment, Run Flow.step (fun _ => Drains nodes T) (s.flow nodes) segment (s'.flow nodes) ∧
      ∀ frame posted, action = .receive frame posted → segment ≠ [] := by
  obtain ⟨inv, segment, run, received⟩ := drainable.inv.step big stepped
  exact ⟨inv, segment, run.weaken fun _ _ _ happens _ => happens.drains addrs drainable draining, received⟩

/-- They bring no packet into transit, lose none, and send packets to nodes of the network only. -/
theorem drains_transit {f f' : Flow LinkAddr PktEntry}
    {moves : List (Flow LinkAddr PktEntry × FlowAction LinkAddr PktEntry)}
    (run : Run Flow.step (fun _ => Drains nodes T) f moves f') :
    Multiset.card f'.queued + Multiset.card f'.air ≤ Multiset.card f.queued + Multiset.card f.air ∧
      f'.born = f.born ∧ f'.lost = f.lost ∧
      ((∀ t ∈ f.air, t.1 ∈ nodes) → ∀ t ∈ f'.air, t.1 ∈ nodes) := by
  induction run with
  | nil => exact ⟨le_rfl, rfl, rfl, id⟩
  | snoc _ drains stepped ih =>
      obtain ⟨fewer, born, lost, addressed⟩ := ih
      cases Flow.step_stepped stepped with
      | injected | lost => exact drains.elim
      | arrived there =>
          have size := Multiset.card_erase_add_one there
          refine ⟨?_, born, lost, fun all t member => addressed all t (Multiset.mem_of_mem_erase member)⟩
          simp only [Multiset.card_cons]
          omega
      | @served place pe fate there =>
          have size := Multiset.card_erase_add_one there
          cases fate with
          | deliver | drop =>
              refine ⟨?_, born, lost, addressed⟩
              simp only [Flow.meet]
              omega
          | forward next =>
              have known : next ∈ nodes := And.left drains
              refine ⟨?_, born, lost, fun all => Multiset.forall_mem_cons.mpr ⟨known, addressed all⟩⟩
              simp only [Flow.meet, Multiset.card_cons]
              omega

/-- No step of the neighbour plane silences a node, except one that says so. -/
theorem beacons_live {i : LinkAddr} {beacons beacons' : BeaconNet} {action : BeaconAction}
    (live : beacons.Live nodes i) (loud : ∀ node, action ≠ .silence node)
    (stepped : beacons.step nodes action = some beacons') : beacons'.Live nodes i := by
  refine ⟨live.1, ?_⟩
  cases action with
  | beacon sender heard =>
      obtain ⟨-, same⟩ := Option.ite_none_right_eq_some.mp stepped
      cases same
      exact live.2
  | expire node neighbour =>
      obtain ⟨-, mapped⟩ := Option.ite_none_right_eq_some.mp stepped
      obtain ⟨p, -, rfl⟩ := Option.map_eq_some_iff.mp mapped
      exact live.2
  | silence node => exact absurd rfl (loud node)

/-- Nor does another step of the program. -/
theorem step_live {i : LinkAddr} (inv : SystemInv s) (live : s.net.beacons.Live nodes i)
    (loud : ∀ node, action ≠ .net (.radio (.silence node)))
    (stepped : s.step nodes packetbufSize action = some s') : s'.net.beacons.Live nodes i := by
  cases label : action.net? with
  | none => rwa [inv.step_data label stepped]
  | some control =>
      cases action with
      | net own =>
          obtain ⟨step, -⟩ := inv.step_net stepped
          generalize s'.net = net at step ⊢
          cases step_stepped step with
          | @radio beacon _ heard =>
              exact beacons_live live (fun node same => loud node (same ▸ rfl)) heard
          | sent | received | lost | delivered => exact live
      | generate | receive | lose | route => cases label

/-- Every step of a quiet network leaves it drainable. -/
theorem Drainable.step (drainable : Drainable nodes s) (big : 128 ≤ packetbufSize)
    (addrs : PlainAddrs nodes) (draining : Draining nodes T s action)
    (stepped : s.step nodes packetbufSize action = some s') : Drainable nodes s' := by
  obtain ⟨inv, segment, run, -⟩ := drainable.moves big addrs draining stepped
  obtain ⟨fewer, -, -, addressed⟩ := drains_transit run
  have loud : ∀ node, action ≠ .net (.radio (.silence node)) := by
    rintro node rfl
    exact draining.2.2
  have one : Run (System.step nodes packetbufSize) Posted s [(s, action)] s' :=
    Run.nil.snoc draining.2.1 stepped
  exact ⟨inv, (run_awake big one drainable.inv drainable.awake).2,
    fun i member => step_live drainable.inv (drainable.live i member) loud stepped,
    addressed drainable.addressed, fewer.trans drainable.few⟩

/-! ### What is left to do -/

/-- A step of the data plane. -/
def SystemAction.isData : SystemAction → Bool
  | .net _ => false
  | _ => true

/-- The events that are pending. -/
def System.pending (nodes : Finset LinkAddr) (s : System) : ℕ := nodes.sum fun i => (s.data i).pending

/-- The steps of the data plane that are left at most: each service and each arrival counts, and so does
    each event. -/
noncomputable def System.toDo (nodes : Finset LinkAddr) (T : ParentTree UInt8) (s : System) : ℕ :=
  2 * (s.flow nodes).work (hopsLeft T) + s.pending nodes

theorem pending_setData {i : LinkAddr} (member : i ∈ nodes) (s : System) (p : PacketNode) :
    (nodes.sum fun j => ((s.setData i p).data j).pending) + (s.data i).pending =
      s.pending nodes + p.pending := by
  have others : ((nodes.erase i).sum fun j => ((s.setData i p).data j).pending) =
      (nodes.erase i).sum fun j => (s.data j).pending :=
    Finset.sum_congr rfl fun j other => by rw [System.setData_other (Finset.ne_of_mem_erase other)]
  rw [System.pending, ← Finset.add_sum_erase nodes _ member, ← Finset.add_sum_erase nodes _ member, others]
  simp only [System.setData_self]
  omega

theorem receive_pending (p : PacketNode) (me source : LinkAddr) (raw : List UInt8) :
    (p.receive me source raw).pending ≤ p.pending + 1 := by
  have enqueued : ∀ (p : PacketNode) pe, (p.enqueue pe).pending ≤ p.pending + 1 := by
    intro p pe
    rw [PacketNode.enqueue]
    split
    · exact Nat.le_succ _
    · exact le_rfl
  rw [PacketNode.receive]
  split
  · dsimp only
    split <;> exact enqueued _ _
  · exact Nat.le_succ _

/-- On the routes the work of a run of the flow goes down. -/
theorem drains_work {f f' : Flow LinkAddr PktEntry}
    {moves : List (Flow LinkAddr PktEntry × FlowAction LinkAddr PktEntry)}
    (run : Run Flow.step (fun _ => Drains nodes T) f moves f') :
    moves.length + f'.work (hopsLeft T) ≤ f.work (hopsLeft T) := by
  refine Flow.run_work (run.weaken fun f move _ drains _ => ?_)
  cases move with
  | inject | lose => exact drains.elim
  | arrive => trivial
  | serve place pe fate =>
      cases fate with
      | forward next => exact ParentTree.Hop.nearer (goal_mem T pe.dst) (And.right drains)
      | deliver | drop => trivial

/-- Each step of the data plane does some of it, and no other step makes more. -/
theorem Drainable.toDo_step (drainable : Drainable nodes s) (big : 128 ≤ packetbufSize)
    (addrs : PlainAddrs nodes) (draining : Draining nodes T s action)
    (stepped : s.step nodes packetbufSize action = some s') :
    s'.toDo nodes T + (if action.isData then 1 else 0) ≤ s.toDo nodes T := by
  obtain ⟨-, segment, run, received⟩ := drainable.moves big addrs draining stepped
  have work := drains_work run
  rw [System.toDo, System.toDo]
  cases action with
  | generate | lose => exact draining.2.2.elim
  | net action =>
      rw [(drainable.inv.step_net stepped).2]
      exact le_rfl
  | receive frame posted =>
      have some_ := List.length_pos_of_ne_nil (received frame posted rfl)
      obtain ⟨⟨-, live⟩, same⟩ := Option.ite_none_right_eq_some.mp stepped
      have there : posted = true := draining.2.1
      subst there
      have total := pending_setData live.1 s (s.received frame true)
      have more : (s.received frame true).pending ≤ (s.data frame.dst).pending + 1 :=
        receive_pending _ _ _ _
      have after : s'.pending nodes =
          nodes.sum fun j => ((s.setData frame.dst (s.received frame true)).data j).pending := by
        cases same
        rfl
      simp only [SystemAction.isData, if_true]
      omega
  | route node fuel =>
      obtain ⟨live, mapped⟩ := Option.ite_none_right_eq_some.mp stepped
      obtain ⟨p, next, same⟩ := Option.map_eq_some_iff.mp mapped
      obtain ⟨pending, waiting, routed⟩ := route_some next
      have fewer : p.pending = pending := (routeAll_keeps routed).2.1
      have total := pending_setData live.1 s p
      have after : s'.pending nodes = nodes.sum fun j => ((s.setData node p).data j).pending := by
        cases same
        rfl
      simp only [SystemAction.isData, if_true]
      omega

/-- As long as a packet is in transit, a step of the data plane is possible. -/
theorem Drainable.enabled (drainable : Drainable nodes s) (packetbufSize : Nat) (addrs : PlainAddrs nodes)
    (routed : Routed nodes T s.net) (transit : (s.flow nodes).queued + (s.flow nodes).air ≠ 0) :
    ∃ action s', action.isData = true ∧ Draining nodes T s action ∧
      s.step nodes packetbufSize action = some s' := by
  obtain ⟨t, member⟩ := Multiset.exists_mem_of_ne_zero transit
  rcases Multiset.mem_add.mp member with queued | flying
  · -- A node with a queued packet has an event pending, and its search ends.
    rw [flow_queued] at queued
    obtain ⟨i, inNet, at_⟩ := Multiset.mem_sum.mp queued
    have some_ : (s.data i).pktList ≠ [] := by
      intro none
      simp [nodeFlow, PacketNode.view, none] at at_
    obtain ⟨id, rfl⟩ : ∃ id, i = ⟨id, 0⟩ := ⟨i.u8_0, (addrs.eq inNet).symm⟩
    obtain ⟨fuel, forwarder, found⟩ :=
      routed.converged.searchTerminates ((routed.verts id).mpr inNet) destino
    have decides : ∀ pe ∈ (s.data ⟨id, 0⟩).pktList, ∃ decision, routeHop fuel (s.net.table ⟨id, 0⟩)
        (s.net.best ⟨id, 0⟩) id ((s.data ⟨id, 0⟩).block pe).dst = some decision := by
      intro pe listed
      rw [(drainable.inv.queued ⟨id, 0⟩ _ (List.mem_map_of_mem listed)).dst, routeHop]
      split
      · exact ⟨_, rfl⟩
      · rw [found]
        exact ⟨_, rfl⟩
    obtain ⟨enough, p, next⟩ : ∃ enough p, (s.data ⟨id, 0⟩).next packetbufSize ⟨id, 0⟩
        (.route enough (s.net.table ⟨id, 0⟩) (s.net.best ⟨id, 0⟩)) = some p :=
      route_enabled (drainable.awake ⟨id, 0⟩ some_) decides
    have possible : (s.step nodes packetbufSize (.route ⟨id, 0⟩ enough)).isSome := by
      rw [System.step, if_pos (drainable.live _ inNet), Option.isSome_map]
      exact Option.isSome_iff_exists.mpr ⟨p, next⟩
    obtain ⟨s', stepped⟩ := Option.isSome_iff_exists.mp possible
    exact ⟨.route ⟨id, 0⟩ enough, s', rfl, ⟨routed, trivial, trivial⟩, stepped⟩
  · -- A packet in the air is for a node that runs.
    have known := drainable.addressed t flying
    rw [flow_air] at flying
    obtain ⟨frame, inAir, token⟩ := List.mem_filterMap.mp (Multiset.mem_coe.mp flying)
    obtain ⟨pe, generated, bytes⟩ := drainable.inv.air frame inAir
    obtain ⟨-, -, -, own⟩ := generated.read bytes
    have dst : t.1 = frame.dst := by rw [← Option.some.inj (own.symm.trans token)]
    rw [dst] at known
    have possible : (s.step nodes packetbufSize (.receive frame true)).isSome := by
      rw [System.step, if_pos ⟨inAir, drainable.live _ known⟩]
      rfl
    obtain ⟨s', stepped⟩ := Option.isSome_iff_exists.mp possible
    exact ⟨.receive frame true, s', rfl, ⟨trivial, rfl, trivial⟩, stepped⟩

/-! ### Runs -/

/-- Every run of a quiet network is drainable to its end. -/
theorem Drainable.run (start : Drainable nodes s₀) (big : 128 ≤ packetbufSize) (addrs : PlainAddrs nodes)
    (run : Run (System.step nodes packetbufSize) (Draining nodes T) s₀ trace s) :
    Drainable nodes s ∧
      ∃ moves, Run Flow.step (fun _ => Drains nodes T) (s₀.flow nodes) moves (s.flow nodes) := by
  obtain ⟨⟨drainable, -⟩, moves, flow⟩ := run_flow big start.inv start
    (fun _ _ _ drainable draining stepped => drainable.step big addrs draining stepped) run
  refine ⟨drainable, moves, flow.weaken fun f move _ allowed _ => ?_⟩
  obtain ⟨pre, action, drainable, -, draining, happens⟩ := allowed
  exact happens.drains addrs drainable draining

/-- It takes no more steps of the data plane than are left to do. -/
theorem Drainable.countP_le (start : Drainable nodes s₀) (big : 128 ≤ packetbufSize)
    (addrs : PlainAddrs nodes) (run : Run (System.step nodes packetbufSize) (Draining nodes T) s₀ trace s) :
    (trace.countP fun e => e.2.isData) + s.toDo nodes T ≤ s₀.toDo nodes T := by
  refine run.count_le start
    (fun _ _ _ drainable draining stepped => drainable.step big addrs draining stepped) ?_ ?_
  · intro s action s' drainable draining stepped data
    have less := drainable.toDo_step big addrs draining stepped
    rw [data] at less
    exact less
  · intro s action s' drainable draining stepped other
    have same := drainable.toDo_step big addrs draining stepped
    rw [other] at same
    exact same

/-- When nothing is in transit any more, what was has been delivered. -/
theorem drains_delivered {f f' : Flow LinkAddr PktEntry}
    {moves : List (Flow LinkAddr PktEntry × FlowAction LinkAddr PktEntry)}
    (run : Run Flow.step (fun _ => Drains nodes T) f moves f') (inside : destino ∈ T.verts)
    (quiet : f'.queued + f'.air = 0) :
    f'.delivered.map Prod.snd = f.delivered.map Prod.snd + (f.queued + f.air).map Prod.snd := by
  have dropped : f'.dropped = f.dropped := by
    refine run.invariant (I := fun f' => f'.dropped = f.dropped) rfl ?_
    intro g move g' same drains stepped
    rw [Flow.step_dropped stepped, same]
    rintro place pe rfl
    exact And.right drains inside
  obtain ⟨-, born, lost, -⟩ := drains_transit run
  have tokens := Flow.conserved_since run
  rw [quiet, zero_add, born, lost, dropped] at tokens
  simp only [Multiset.map_add] at tokens ⊢
  refine add_right_cancel (b := f.dropped.map Prod.snd + f.lost.map Prod.snd + f.born.map Prod.snd) ?_
  rw [← add_assoc, ← add_assoc, tokens]
  abel

/-- Let packets be routed only while the routes are those of a tree, all events be posted, no node fall
    silent, and no packet be born or lost on the air while at most ten are in transit. Then none of these is
    refused; the run takes no more steps of the data plane than are left to do, and as long as a packet is
    in transit and the routes are those of the tree one is possible; and when none is any more, all have
    been delivered at their destination, if that is in the network. -/
theorem in_transit_drains (big : 128 ≤ packetbufSize) (addrs : PlainAddrs nodes)
    {past : List (System × SystemAction)}
    (before : Run (System.step nodes packetbufSize) Posted System.boot past s₀)
    (live : ∀ i ∈ nodes, s₀.net.beacons.Live nodes i)
    (few : Multiset.card (s₀.flow nodes).queued + Multiset.card (s₀.flow nodes).air ≤ pktMem)
    (run : Run (System.step nodes packetbufSize) (Draining nodes T) s₀ trace s) :
    (s.flow nodes).lost = (s₀.flow nodes).lost ∧
    (trace.countP fun e => e.2.isData) + s.toDo nodes T ≤ s₀.toDo nodes T ∧
    (Routed nodes T s.net → (s.flow nodes).queued + (s.flow nodes).air ≠ 0 →
      ∃ action s', action.isData = true ∧ Draining nodes T s action ∧
        s.step nodes packetbufSize action = some s') ∧
    ((s.flow nodes).queued + (s.flow nodes).air = 0 → destino ∈ T.verts →
      (s.flow nodes).delivered.map Prod.snd = (s₀.flow nodes).delivered.map Prod.snd +
        ((s₀.flow nodes).queued + (s₀.flow nodes).air).map Prod.snd) := by
  obtain ⟨inv, awake⟩ := run_awake big before .boot fun i queued => absurd rfl queued
  have start : Drainable nodes s₀ := ⟨inv, awake, live, run_addressed big addrs before, few⟩
  obtain ⟨drainable, moves, drains⟩ := start.run big addrs run
  obtain ⟨-, -, lost, -⟩ := drains_transit drains
  exact ⟨lost, start.countP_le big addrs run, fun routed => drainable.enabled packetbufSize addrs routed,
    fun quiet inside => drains_delivered drains inside quiet⟩

/-- The packet of node 8 is delivered at node 17. -/
theorem in_transit_drains_star :
    ∃ s₀ s, execute (System.step starNodes 128) System.boot (starGrows ++ [.generate ⟨8, 0⟩ true]) = some s₀ ∧
      execute (System.step starNodes 128) s₀ starCarries = some s ∧
      (s.flow starNodes).delivered.map Prod.snd = {numberedEntry 1 origen destino} := by
  have starts : (execute (System.step starNodes 128) System.boot (starGrows ++ [.generate ⟨8, 0⟩ true])).any
      (fun s => StarKnown s.net ∧ (∀ i ∈ starNodes, s.net.beacons.Live starNodes i) ∧
        (s.flow starNodes).queued = {(⟨8, 0⟩, numberedEntry 1 origen destino)} ∧
        (s.flow starNodes).air = 0 ∧ (s.flow starNodes).delivered = 0) := by
    decide +kernel
  obtain ⟨s₀, started, known⟩ := (Option.any_eq_true _ _).mp starts
  obtain ⟨known, live, queued, air, delivered⟩ := of_decide_eq_true known
  have ends : ((execute (System.step starNodes 128) System.boot (starGrows ++ [.generate ⟨8, 0⟩ true])).bind
      (execute (System.step starNodes 128) · starCarries)).any
        (fun s => (s.flow starNodes).queued + (s.flow starNodes).air = 0) := by
    decide +kernel
  rw [started, Option.bind_some] at ends
  obtain ⟨s, ended, quiet⟩ := (Option.any_eq_true _ _).mp ends
  have before : Run (System.step starNodes 128) Posted System.boot _ s₀ :=
    Run.of_execute Posted (by simp [starGrows, starReports, Posted]) started
  have inv : SystemInv s₀ := run_inv (by decide) .boot before
  have run := known.stays (by decide) inv (by decide) ended
  have draining : Run (System.step starNodes 128) (Draining starNodes star) s₀ _ s :=
    run.weaken fun t action _ fine _ => ⟨fine.1.routed.along, by
      have listed := fine.2
      simp only [starCarries, List.mem_cons, List.not_mem_nil, or_false] at listed
      rcases listed with rfl | rfl | rfl | rfl | rfl <;> exact ⟨by trivial, trivial⟩⟩
  have drained := (in_transit_drains (by decide) ⟨by decide, by decide, by decide⟩ before live
    (by rw [queued, air]; decide) draining).2.2.2 (of_decide_eq_true quiet) (.inr (.inr rfl))
  rw [queued, air, delivered] at drained
  exact ⟨s₀, s, started, ended, drained⟩

end TreeRssi
