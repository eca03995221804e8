/-
Module: TreeRssi.Proofs.SteadyRoutes
Layer: Proofs
Purpose: The data plane of the whole program while the routes are those of a tree. Every packet has a goal:
  its destination, or node 1 where the tree does not have it. A node that is not the goal hands the packet
  to a node one hop nearer to it, and the goal ends it. So what a run transmits is exactly the sum of the
  distances that its packets have come nearer to their goals.
Imports: TreeRssi.Proofs.ColdStart, TreeRssi.Proofs.Conservation
Trusted boundary: none
Main exports: goal, hopsLeft, Routed.decision, OnRoute, run_onRoute, System.transmissions,
  transmissions_exact
Open obligations: none
-/
import TreeRssi.Proofs.ColdStart
import TreeRssi.Proofs.Conservation

namespace TreeRssi

open CText LabelledRun TokenFlow

variable {nodes : Finset LinkAddr} {T : ParentTree UInt8} {net : Net} {packetbufSize : Nat}

/-! ### One decision -/

open Classical in
/-- Where a packet for `d` ends: at `d`, or at the root if there is no such node. -/
noncomputable def goal (T : ParentTree UInt8) (d : UInt8) : UInt8 := if d ∈ T.verts then d else T.root

theorem goal_mem (T : ParentTree UInt8) (d : UInt8) : goal T d ∈ T.verts := by
  rw [goal]
  split
  next inside => exact inside
  next => exact T.root_mem

/-- How many hops a packet is away from its goal. -/
noncomputable def hopsLeft (T : ParentTree UInt8) (t : LinkAddr × PktEntry) : ℕ :=
  T.graph.dist t.1.u8_0 (goal T t.2.dst)

theorem routeHop_unique {fuel more : Nat} {tree : RoutingTree} {best : LinkAddr} {i d : UInt8}
    {a b : Decision} (decided : routeHop fuel tree best i d = some a)
    (decided' : routeHop more tree best i d = some b) : a = b := by
  have more₁ := routeHop_mono (Nat.le_max_left fuel more) decided
  have more₂ := routeHop_mono (Nat.le_max_right fuel more) decided'
  exact Option.some.inj (more₁.symm.trans more₂)

/-- A next hop is the best parent, or what the search has found. -/
theorem routeHop_next {fuel : Nat} {tree : RoutingTree} {best next : LinkAddr} {i d : UInt8}
    (decided : routeHop fuel tree best i d = some (.forward next)) :
    next = best ∧ best ≠ linkaddrNull ∨
      ∃ child, child ≠ 0 ∧ next = ⟨child, 0⟩ ∧ searchForwarder fuel tree i d = some child := by
  rw [routeHop] at decided
  split at decided
  · cases decided
  · obtain ⟨forwarder, found, same⟩ := Option.map_eq_some_iff.mp decided
    split at same
    · split at same
      · cases same
      next proper => exact .inl ⟨(Decision.forward.inj same).symm, proper⟩
    next child => exact .inr ⟨forwarder, child, (Decision.forward.inj same).symm, found⟩

/-- Where the routes are those of a tree, every next hop is an address that the program makes of an id. -/
theorem Routed.next_plain (routed : Routed nodes T net) {i d : UInt8} (vertex : i ∈ T.verts) {fuel : Nat}
    {next : LinkAddr} (decided :
      routeHop fuel (net.table ⟨i, 0⟩) (net.best ⟨i, 0⟩) i d = some (.forward next)) : next.u8_1 = 0 := by
  rcases routeHop_next decided with ⟨rfl, proper⟩ | ⟨child, -, rfl, -⟩
  · rcases (T.reaches_root vertex).cases_head with rfl | ⟨p, up, -⟩
    · exact absurd routed.converged.rootParent proper
    · rw [routed.parents i p up]
  · rfl

/-- A node that is not the goal hands the packet to the node of the network that is next on the way; the
    goal delivers it, or drops it where the network has no such destination. -/
theorem Routed.decision (routed : Routed nodes T net) {i d : UInt8} (vertex : i ∈ T.verts) {fuel : Nat}
    {decision : Decision} (decided :
      routeHop fuel (net.table ⟨i, 0⟩) (net.best ⟨i, 0⟩) i d = some decision) :
    (i = goal T d ∧ (d ∈ T.verts ∧ decision = .deliver ∨ d ∉ T.verts ∧ decision = .drop)) ∨
    ∃ next, decision = .forward next ∧ next ∈ nodes ∧ T.Hop (.complete T (goal T d)) i next.u8_0 := by
  have converged := routed.converged
  by_cases here : i = goal T d
  · refine .inl ⟨here, ?_⟩
    by_cases inside : d ∈ T.verts
    · rw [goal, if_pos inside] at here
      rw [routeHop, if_pos here.symm] at decided
      exact .inl ⟨inside, (Option.some.inj decided).symm⟩
    · rw [goal, if_neg inside] at here
      subst here
      obtain ⟨other, enough, found⟩ := converged.unknown vertex inside
      have dropped : routeHop enough (net.table ⟨T.root, 0⟩) (net.best ⟨T.root, 0⟩) T.root d =
          some .drop := by
        rw [routeHop, if_neg other, found, converged.rootParent]
        rfl
      exact .inr ⟨inside, routeHop_unique decided dropped⟩
  · obtain ⟨w, wMem, hop⟩ := ParentTree.exists_hop (goal_mem T d) vertex here
    have hands : ∃ enough next, routeHop enough (net.table ⟨i, 0⟩) (net.best ⟨i, 0⟩) i d =
        some (.forward next) ∧ next.u8_0 = w := by
      by_cases inside : d ∈ T.verts
      · have same : goal T d = d := if_pos inside
        rw [same] at hop
        exact converged.hop vertex hop
      · have same : goal T d = T.root := if_neg inside
        rw [same] at hop here
        obtain ⟨other, enough, found⟩ := converged.unknown vertex inside
        cases hop with
        | down known _ _ =>
            -- Nothing is above the root.
            rcases known.1.cases_head with same | ⟨p, up, -⟩
            · exact absurd same.symm here
            · rw [ParentTree.Up, T.parent_root] at up
              cases up
        | up _ _ up => exact ⟨enough, _, converged.up other found up, converged.parent up⟩
    obtain ⟨enough, next, forwarded, own⟩ := hands
    refine .inr ⟨next, routeHop_unique decided forwarded, ?_, by rw [own]; exact hop⟩
    have plain := routed.next_plain vertex forwarded
    have addr : next = ⟨w, 0⟩ := by rw [← own, ← plain]
    rw [addr]
    exact (routed.verts w).mp wMem

/-! ### Runs -/

/-- Packets are routed only while the routes are those of the tree. -/
def RoutedAlong (nodes : Finset LinkAddr) (T : ParentTree UInt8) (s : System) : SystemAction → Prop
  | .route _ _ => Routed nodes T s.net
  | _ => True

theorem Routed.along {s : System} {action : SystemAction} (routed : Routed nodes T s.net) :
    RoutedAlong nodes T s action := by
  cases action with
  | route => exact routed
  | net | generate | receive | lose => trivial

/-- A place that forwards a packet hands it to the next on the way to its goal; only the goal ends it, by
    what the network has for its destination. -/
def OnRoute (nodes : Finset LinkAddr) (T : ParentTree UInt8) : FlowAction LinkAddr PktEntry → Prop
  | .serve place pe (.forward next) =>
      next ∈ nodes ∧ T.Hop (.complete T (goal T pe.dst)) place.u8_0 next.u8_0
  | .serve place pe .deliver => place.u8_0 = goal T pe.dst ∧ destino ∈ T.verts
  | .serve place pe .drop => place.u8_0 = goal T pe.dst ∧ destino ∉ T.verts
  | _ => True

/-- What happens where the routes are those of a tree is on them. -/
theorem Happens.onRoute {s : System} {action : SystemAction} {move : FlowAction LinkAddr PktEntry}
    (happens : Happens nodes s action move) (addrs : PlainAddrs nodes)
    (along : RoutedAlong nodes T s action) : OnRoute nodes T move := by
  cases happens with
  | @served node fuel move member serves =>
      obtain ⟨pe, decision, generated, rfl, decided⟩ := serves
      have routed : Routed nodes T s.net := along
      obtain ⟨id, rfl⟩ : ∃ id, node = ⟨id, 0⟩ := ⟨node.u8_0, (addrs.eq member).symm⟩
      rcases routed.decision ((routed.verts id).mpr member) decided with
        ⟨here, ⟨inside, rfl⟩ | ⟨outside, rfl⟩⟩ | ⟨next, rfl, nextMem, hop⟩
      · exact ⟨here, generated.dst ▸ inside⟩
      · exact ⟨here, generated.dst ▸ outside⟩
      · exact ⟨nextMem, hop⟩
  | generated | arrived | refused | lost => trivial

variable {s s₀ : System} {trace : List (System × SystemAction)}

/-- Every run on such routes is a run of the flow on them. -/
theorem run_onRoute (big : 128 ≤ packetbufSize) (addrs : PlainAddrs nodes) (inv : SystemInv s₀)
    (run : Run (System.step nodes packetbufSize) (RoutedAlong nodes T) s₀ trace s) :
    SystemInv s ∧ ∃ moves, Run Flow.step (fun _ => OnRoute nodes T) (s₀.flow nodes) moves (s.flow nodes) := by
  obtain ⟨⟨-, inv'⟩, moves, flow⟩ := run_flow (I := fun _ => True) big inv trivial
    (fun _ _ _ _ _ _ => trivial) run
  refine ⟨inv', moves, flow.weaken fun f move _ allowed _ => ?_⟩
  obtain ⟨pre, action, -, -, along, happens⟩ := allowed
  exact happens.onRoute addrs along

/-- The data packets that were put on the air. -/
def System.transmissions (nodes : Finset LinkAddr) (s : System) : ℕ :=
  nodes.sum fun i => (s.data i).log.sent.length

/-- They are the moves of the flow. -/
theorem SystemInv.transmissions (inv : SystemInv s) : s.transmissions nodes = (s.flow nodes).moves.card := by
  rw [flow_part Flow.moves rfl Flow.add_moves, Multiset.card_add, Multiset.card_sum]
  change _ = 0 + _
  rw [zero_add, System.transmissions]
  apply Finset.sum_congr rfl
  intro i _
  have sent := congrArg List.length (inv.accounted i).sent
  rw [List.length_map] at sent
  have moves : ((s.data i).log.consumed.filterMap fun c => c.nextHop.map fun next =>
      (i, next, c.packet.entry)).length = ((s.data i).log.consumed.filterMap Consumption.nextHop).length := by
    simp only [List.length_filterMap_eq_countP, Option.isSome_map]
  rw [sent, ← moves]
  rfl

/-- How far the packets are from their goals that are queued, in the air, or lost where they were. -/
noncomputable def System.hopsAhead (nodes : Finset LinkAddr) (T : ParentTree UInt8) (s : System) : ℕ :=
  (((s.flow nodes).queued + (s.flow nodes).air + (s.flow nodes).lost).map (hopsLeft T)).sum

/-- What the steps on these routes transmit, and what they end. -/
theorem run_transmissions (big : 128 ≤ packetbufSize) (addrs : PlainAddrs nodes) (inv : SystemInv s₀)
    (run : Run (System.step nodes packetbufSize) (RoutedAlong nodes T) s₀ trace s) :
    s.transmissions nodes + s.hopsAhead nodes T + (s₀.log.born.map (hopsLeft T)).sum =
        s₀.transmissions nodes + s₀.hopsAhead nodes T + (s.log.born.map (hopsLeft T)).sum ∧
    (destino ∈ T.verts → (s.flow nodes).dropped = (s₀.flow nodes).dropped) ∧
    (destino ∉ T.verts → (s.flow nodes).delivered = (s₀.flow nodes).delivered) := by
  obtain ⟨inv', moves, flow⟩ := run_onRoute big addrs inv run
  have priced : Run Flow.step (Flow.Priced (hopsLeft T) fun _ => 1) (s₀.flow nodes) moves (s.flow nodes) := by
    refine flow.weaken fun f move _ onRoute _ => ?_
    cases move with
    | serve place pe fate =>
        cases fate with
        | forward next => exact (ParentTree.Hop.nearer (goal_mem T pe.dst) onRoute.2).trans (Nat.add_comm _ _)
        | deliver | drop => trivial
    | inject | arrive | lose => trivial
  have spent : Run Flow.step (Flow.Spent (hopsLeft T)) (s₀.flow nodes) moves (s.flow nodes) := by
    refine flow.weaken fun f move _ onRoute _ => ?_
    cases move with
    | serve place pe fate =>
        cases fate with
        | deliver | drop =>
            have there : place.u8_0 = goal T pe.dst := onRoute.1
            rw [Flow.Spent, hopsLeft, there, SimpleGraph.dist_self]
        | forward => trivial
    | inject | arrive | lose => trivial
  obtain ⟨gain, came, born⟩ := Flow.balance priced
  obtain ⟨delivered, dropped⟩ := Flow.ended spent
  refine ⟨?_, fun inside => ?_, fun outside => ?_⟩
  · rw [flow_born, flow_born, Multiset.map_coe, Multiset.map_coe, Multiset.sum_coe, Multiset.sum_coe] at born
    simp only [Flow.total, Multiset.map_const', Multiset.sum_replicate, smul_eq_mul, mul_one] at came
    rw [inv'.transmissions, inv.transmissions, born]
    simp only [System.hopsAhead, Multiset.map_add, Multiset.sum_add]
    omega
  · refine flow.invariant (I := fun f => f.dropped = (s₀.flow nodes).dropped) rfl ?_
    intro f move f' same onRoute stepped
    rw [Flow.step_dropped stepped, same]
    rintro place pe rfl
    exact onRoute.2 inside
  · refine flow.invariant (I := fun f => f.delivered = (s₀.flow nodes).delivered) rfl ?_
    intro f move f' same onRoute stepped
    rw [Flow.step_delivered stepped, same]
    rintro place pe rfl
    exact outside onRoute.2

/-- Where packets are routed only while the routes are those of a tree, a run of the whole program transmits
    exactly as often as its packets have come nearer to their goals: the transmissions, with the distances
    of all packets that are queued, in the air or lost, grow by the distances of the packets that are born.
    Nothing is dropped that has a destination in the network, and nothing delivered that has none. -/
theorem transmissions_exact (big : 128 ≤ packetbufSize) (addrs : PlainAddrs nodes)
    {past : List (System × SystemAction)}
    (before : Run (System.step nodes packetbufSize) anyStep System.boot past s₀)
    (run : Run (System.step nodes packetbufSize) (RoutedAlong nodes T) s₀ trace s) :
    s.transmissions nodes + s.hopsAhead nodes T + (s₀.log.born.map (hopsLeft T)).sum =
        s₀.transmissions nodes + s₀.hopsAhead nodes T + (s.log.born.map (hopsLeft T)).sum ∧
    (destino ∈ T.verts → (s.flow nodes).dropped = (s₀.flow nodes).dropped) ∧
    (destino ∉ T.verts → (s.flow nodes).delivered = (s₀.flow nodes).delivered) := by
  exact run_transmissions big addrs (run_inv big .boot before) run

/-! ### The origin and the destination below node 1 -/

/-- The network of the star. -/
def starNodes : Finset LinkAddr := {⟨1, 0⟩, ⟨8, 0⟩, ⟨17, 0⟩}

/-- What its nodes know of it. -/
def StarKnown (net : Net) : Prop :=
  (net.best ⟨8, 0⟩ = ⟨1, 0⟩ ∧ net.best ⟨17, 0⟩ = ⟨1, 0⟩ ∧ net.best ⟨1, 0⟩ = linkaddrNull) ∧
    net.table ⟨1, 0⟩ = [⟨1, [8, 17]⟩] ∧ net.table ⟨8, 0⟩ = [] ∧ net.table ⟨17, 0⟩ = []

instance : DecidablePred StarKnown := fun _ => inferInstanceAs (Decidable (_ ∧ _))

theorem StarKnown.routed (known : StarKnown net) : Routed starNodes star net := by
  obtain ⟨⟨up8, up17, top⟩, ⟨table1, table8, table17⟩⟩ := known
  refine ⟨fun id => by simp [star, starNodes], fun c p up => ?_, star_converged top table1 ?_⟩
  · obtain ⟨rfl | rfl, rfl⟩ := star_up.mp up
    · exact up8
    · exact up17
  · rintro i (rfl | rfl)
    · exact ⟨up8, table8⟩
    · exact ⟨up17, table17⟩

/-- Both hear the beacon of node 1. -/
def starHeard : List (LinkAddr × Int) := [(⟨8, 0⟩, -10), (⟨17, 0⟩, -12)]

/-- The report of a leaf, with its id as text. -/
def leafFrame (child : UInt8) (id : List UInt8) : Frame :=
  ⟨⟨child, 0⟩, ⟨1, 0⟩, uControl :: (id ++ [ch ':', ch ';', 0])⟩

/-- The two others report to node 1. -/
def starReports : List SystemAction :=
  [.net (.sendControl ⟨8, 0⟩), .net (.receive (leafFrame 8 [ch '8']) true), .net (.deliver ⟨1, 0⟩),
    .net (.sendControl ⟨17, 0⟩), .net (.receive (leafFrame 17 [ch '1', ch '7']) true), .net (.deliver ⟨1, 0⟩)]

def starGrows : List SystemAction := .net (.radio (.beacon ⟨1, 0⟩ starHeard)) :: starReports

/-- The first packet goes from node 8 over node 1 to node 17. -/
def starCarries : List SystemAction :=
  let packet (src dst : UInt8) : Frame :=
    ⟨⟨src, 0⟩, ⟨dst, 0⟩, uData :: (packetText (numberedEntry 1 origen destino) ++ [0])⟩
  [.route ⟨8, 0⟩ 2, .receive (packet 8 1) true, .route ⟨1, 0⟩ 5, .receive (packet 1 17) true, .route ⟨17, 0⟩ 2]

theorem starGrows_known : ∃ s₀, execute (System.step starNodes 128) System.boot starGrows = some s₀ ∧
    SystemInv s₀ ∧ StarKnown s₀.net := by
  have grows : (execute (System.step starNodes 128) System.boot starGrows).any (fun s => StarKnown s.net) := by
    decide +kernel
  obtain ⟨s₀, executed, known⟩ := (Option.any_eq_true _ _).mp grows
  have run := Run.of_execute anyStep (fun _ _ _ => trivial) executed
  exact ⟨s₀, executed, run_inv (by decide) .boot run, of_decide_eq_true known⟩

/-- What the three nodes know stays as it is where no step is one of the neighbour or the control plane. -/
theorem StarKnown.stays {actions : List SystemAction} (big : 128 ≤ packetbufSize) (inv : SystemInv s₀)
    (known : StarKnown s₀.net) (data : ∀ a ∈ actions, a.net? = none)
    (executed : execute (System.step nodes packetbufSize) s₀ actions = some s) :
    Run (System.step nodes packetbufSize) (fun t action => StarKnown t.net ∧ action ∈ actions) s₀
      (history (System.step nodes packetbufSize) s₀ actions) s := by
  have run := Run.of_execute (fun _ action => action ∈ actions) (fun _ _ member => member) executed
  refine run.guard fun (t, action) member => ?_
  obtain ⟨earlier, post, before, listed, -⟩ := run.of_mem member
  refine ⟨(before.invariant (I := fun t => SystemInv t ∧ StarKnown t.net) ⟨inv, known⟩ ?_).2, listed⟩
  rintro t action t' ⟨inv, known⟩ listed stepped
  exact ⟨(inv.step big stepped).1, (inv.step_data (data action listed) stepped).symm ▸ known⟩

theorem transmissions_exact_star :
    ∃ s₀ s, execute (System.step starNodes 128) System.boot starGrows = some s₀ ∧
      execute (System.step starNodes 128) s₀ (.generate ⟨8, 0⟩ true :: starCarries) = some s ∧
      s.transmissions starNodes + s.hopsAhead starNodes star + (s₀.log.born.map (hopsLeft star)).sum =
        s₀.transmissions starNodes + s₀.hopsAhead starNodes star + (s.log.born.map (hopsLeft star)).sum ∧
      (s.flow starNodes).dropped = (s₀.flow starNodes).dropped := by
  obtain ⟨s₀, grown, inv, known⟩ := starGrows_known
  have carries : ((execute (System.step starNodes 128) System.boot starGrows).bind fun s =>
      execute (System.step starNodes 128) s (.generate ⟨8, 0⟩ true :: starCarries)).isSome := by
    decide +kernel
  rw [grown, Option.bind_some] at carries
  obtain ⟨s, executed⟩ := Option.isSome_iff_exists.mp carries
  have addrs : PlainAddrs starNodes := ⟨by decide, by decide, by decide⟩
  have before := Run.of_execute anyStep (fun _ _ _ => trivial) grown
  have run := known.stays (by decide) inv (by decide) executed
  have exact_ := transmissions_exact (T := star) (by decide) addrs before
    (run.weaken fun _ _ _ fine _ => fine.1.routed.along)
  exact ⟨s₀, s, grown, executed, exact_.1, exact_.2.1 (.inr (.inr rfl))⟩

end TreeRssi
