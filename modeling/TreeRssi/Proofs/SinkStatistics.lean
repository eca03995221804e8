/-
Module: TreeRssi.Proofs.SinkStatistics
Layer: Proofs
Purpose: The statistics of node 1 in the whole program. A packet on the routes of a tree passes the root at
  most once: a hop to the root is the end of the way that had the root ahead. So node 1 never receives a
  number twice, and the losses that it prints are exactly the packets that have not reached it.
Imports: TreeRssi.Proofs.SteadyRoutes
Trusted boundary: none
Main exports: frameSeq, sinkLog, sink_step, SinkCounts, run_sinkCounts, sink_statistics_exact
Open obligations: none
-/
import TreeRssi.Proofs.SteadyRoutes

namespace TreeRssi

open CText LabelledRun TokenFlow SequenceLog KeyedStreams

variable {nodes : Finset LinkAddr} {T : ParentTree UInt8} {packetbufSize : Nat} {s s' : System}
  {action : SystemAction} {trace : List (System × SystemAction)}

/-! ### What node 1 receives -/

/-- Node 1. -/
def sinkAddr : LinkAddr := ⟨1, 0⟩

/-- The number that `recv_uc` reads in a data packet. -/
def frameSeq (frame : Frame) : Option Nat :=
  match recvUc frame.data with
  | .data msg => some (parseStats (cstr msg)).1
  | _ => none

/-- The number of the data packet that node 1 receives in a step. -/
def sinkReads : SystemAction → Option Nat
  | .receive frame _ => if frame.dst = sinkAddr then frameSeq frame else none
  | _ => none

/-- The numbers of the data packets that node 1 has received, the latest first. -/
def sinkLog (trace : List (System × SystemAction)) : List Nat := trace.filterMap fun e => sinkReads e.2

/-- Node 1 counts a numbered packet as one of its origin, whether or not it has a block for it. -/
theorem receive_numbered {p : PacketNode} (accounted : Accounted sinkAddr p) {n : Nat} (numbered : n < 65536)
    {frame : Frame} (bytes : frame.data = uData :: (packetText (numberedEntry n origen destino) ++ [0])) :
    frameSeq frame = some n ∧
      (p.receive sinkAddr frame.src frame.data).pktStatsTable = updateStats origen n p.pktStatsTable := by
  let arrival : DataArrival := ⟨frame.src, destino, n, origen, numbered, by decide⟩
  have raw : frame.data = arrival.raw := by
    rw [bytes, packetText, numberedEntry_text numbered]
    rfl
  obtain ⟨msg, received, read⟩ := arrival.recvUc_raw
  refine ⟨?_, ?_⟩
  · rw [frameSeq, raw, received]
    simp only [read, parseStats_text, arrival]
  · have view : (p.receive sinkAddr frame.src frame.data).view = p.view.receive sinkAddr frame.src frame.data :=
      receive_view accounted.owned frame.data
    have stats := congrArg DataState.pktStatsTable view
    rw [raw] at stats ⊢
    exact stats.trans (receive_stats rfl p.view arrival)

theorem enqueue_stats (p : PacketNode) (pe : PktEntry) : (p.enqueue pe).pktStatsTable = p.pktStatsTable := by
  rw [PacketNode.enqueue]
  split <;> rfl

theorem generatePktDst_stats (p : PacketNode) (me : LinkAddr) :
    (p.generatePktDst me).pktStatsTable = p.pktStatsTable := by
  rw [PacketNode.generatePktDst]
  split
  · exact enqueue_stats _ _
  · rfl

theorem post_stats (p p' : PacketNode) (posted : Bool) :
    (p.post posted p').pktStatsTable = p'.pktStatsTable := by
  cases posted <;> rfl

/-- What a step does to the statistics of node 1. -/
inductive SinkStep (s : System) (action : SystemAction) (s' : System) : Prop where
  | quiet (reads : sinkReads action = none)
      (table : (s'.data sinkAddr).pktStatsTable = (s.data sinkAddr).pktStatsTable)
  | counts {frame : Frame} {posted : Bool} {n : Nat} (received : action = .receive frame posted)
      (numbered : n < 65536) (token : frameToken frame = some (sinkAddr, numberedEntry n origen destino))
      (reads : sinkReads action = some n)
      (table : (s'.data sinkAddr).pktStatsTable = updateStats origen n (s.data sinkAddr).pktStatsTable)

theorem sink_step (inv : SystemInv s) (stepped : s.step nodes packetbufSize action = some s') :
    SinkStep s action s' := by
  cases system_stepped stepped with
  | net stepped =>
      rw [(inv.step_net stepped).2]
      exact .quiet rfl rfl
  | lost => exact .quiet rfl rfl
  | generated =>
      refine .quiet rfl (System.setData_keeps _ ?_ sinkAddr)
      rw [System.generated, post_stats, generatePktDst_stats]
  | @received frame posted inAir =>
      by_cases here : frame.dst = sinkAddr
      · obtain ⟨pe, generated, bytes⟩ := inv.air frame inAir
        obtain ⟨-, -, -, token⟩ := generated.read bytes
        obtain ⟨n, numbered, rfl⟩ := generated
        obtain ⟨reads, table⟩ := receive_numbered (inv.accounted sinkAddr) numbered bytes
        refine .counts rfl numbered (by rw [token, here]) (by rw [sinkReads, if_pos here, reads]) ?_
        rw [← table]
        change ((s.setData frame.dst (s.received frame posted)).data sinkAddr).pktStatsTable = _
        rw [← here, System.setData_self, System.received, post_stats]
      · refine .quiet (if_neg here) ?_
        change ((s.setData frame.dst (s.received frame posted)).data sinkAddr).pktStatsTable = _
        rw [System.setData_other (Ne.symm here)]
  | routed _ next =>
      obtain ⟨pending, -, routed⟩ := route_some next
      exact .quiet rfl (System.setData_keeps PacketNode.pktStatsTable (routeAll_keeps routed).2.2 sinkAddr)

/-! ### Each number once -/

/-- The packet, if its place is node 1. -/
def toSink (t : LinkAddr × PktEntry) : Multiset PktEntry := if t.1.u8_0 = 1 then {t.2} else 0

/-- The entries of the numbers that node 1 has received. -/
def sinkEntries (trace : List (System × SystemAction)) : Multiset PktEntry :=
  ((sinkLog trace).map fun n => numberedEntry n origen destino : List _)

/-- Node 1 counts what it receives, and receives no more than what was sent to it and has left the air. -/
structure SinkCounts (nodes : Finset LinkAddr) (trace : List (System × SystemAction)) (s : System) : Prop where
  inv : SystemInv s
  numbered : ∀ n ∈ sinkLog trace, n < 65536
  table : Summarises ((sinkLog trace).map fun n => (origen, n)) (s.data sinkAddr).pktStatsTable
  landed : ∃ gone, ((s.flow nodes).moves.map fun m => toSink (m.2.1, m.2.2)).sum =
    ((s.flow nodes).air.map toSink).sum + gone ∧ sinkEntries trace ≤ gone

theorem SinkCounts.boot (nodes : Finset LinkAddr) : SinkCounts nodes [] System.boot where
  inv := .boot
  numbered _ member := by cases member
  table := .nil
  landed := ⟨0, by rw [flow_boot]; rfl, le_rfl⟩

/-- A packet that node 1 receives has left the air. -/
theorem received_lands {frame : Frame} {posted : Bool} {pe : PktEntry} {f f' : Flow LinkAddr PktEntry}
    {segment : List (Flow LinkAddr PktEntry × FlowAction LinkAddr PktEntry)}
    (run : Run Flow.step (fun _ => Happens nodes s (.receive frame posted)) f segment f')
    (some_ : segment ≠ []) (token : frameToken frame = some (sinkAddr, pe)) :
    {pe} ≤ (segment.map fun e => Flow.landing toSink e.2).sum := by
  cases run with
  | nil => exact absurd rfl some_
  | @snoc _ _ _ move _ happens _ =>
      have lands : Flow.landing toSink move = {pe} := by
        cases happens with
        | arrived _ own _ | refused _ _ own _ =>
            have same := Prod.mk.inj (Option.some.inj (own.symm.trans token))
            rw [Flow.landing, same.1, same.2]
            rfl
      rw [List.map_cons, List.sum_cons, lands]
      exact Multiset.le_add_right _ _

theorem SinkCounts.step (counts : SinkCounts nodes trace s) (big : 128 ≤ packetbufSize)
    (stepped : s.step nodes packetbufSize action = some s') : SinkCounts nodes ((s, action) :: trace) s' := by
  obtain ⟨inv, segment, run, received⟩ := counts.inv.step big stepped
  obtain ⟨gone, start, before⟩ := counts.landed
  have later := Flow.landed run start
  cases sink_step counts.inv stepped with
  | quiet reads table =>
      have log : sinkLog ((s, action) :: trace) = sinkLog trace := List.filterMap_cons_none reads
      refine ⟨inv, by rw [log]; exact counts.numbered, by rw [log, table]; exact counts.table, _, later, ?_⟩
      rw [sinkEntries, log]
      exact before.trans (Multiset.le_add_left _ _)
  | @counts frame posted n is numbered token reads table =>
      have log : sinkLog ((s, action) :: trace) = n :: sinkLog trace := List.filterMap_cons_some reads
      subst is
      have lands := received_lands run (received frame posted rfl) token
      refine ⟨inv, ?_, ?_, _, later, ?_⟩
      · rw [log]
        exact List.forall_mem_cons.mpr ⟨numbered, counts.numbered⟩
      · rw [log, table, List.map_cons]
        exact counts.table.update (updateStats_cases (by decide) n _)
      · rw [sinkEntries, log, List.map_cons, ← Multiset.cons_coe, ← Multiset.singleton_add]
        exact add_le_add lands before

theorem run_sinkCounts (big : 128 ≤ packetbufSize) {ok : System → SystemAction → Prop}
    (run : Run (System.step nodes packetbufSize) ok System.boot trace s) : SinkCounts nodes trace s := by
  induction run with
  | nil => exact .boot nodes
  | snoc _ _ stepped ih => exact ih.step big stepped

open Classical in
/-- The packet, if it still has the root ahead. -/
noncomputable def rootAhead (T : ParentTree UInt8) (t : LinkAddr × PktEntry) : Multiset PktEntry :=
  if T.Crosses (goal T t.2.dst) t.1.u8_0 then {t.2} else 0

/-- On the routes of a tree a packet is sent to the root at most once. -/
theorem sent_to_root (big : 128 ≤ packetbufSize) (addrs : PlainAddrs nodes) (root : T.root = 1)
    (run : Run (System.step nodes packetbufSize) (RoutedAlong nodes T) System.boot trace s) :
    ((s.flow nodes).moves.map fun m => toSink (m.2.1, m.2.2)).sum ≤
      (s.log.born.map Prod.snd : List PktEntry) := by
  obtain ⟨-, moves, flow⟩ := run_onRoute big addrs .boot run
  rw [flow_boot] at flow
  have priced : Run Flow.step (Flow.Priced (rootAhead T) fun m => toSink (m.2.1, m.2.2)) .empty moves
      (s.flow nodes) := by
    refine flow.weaken fun f move _ onRoute _ => ?_
    cases move with
    | serve place pe fate =>
        cases fate with
        | forward next =>
            have crosses := ParentTree.Hop.crosses (And.right onRoute)
            simp only [Flow.Priced, rootAhead, toSink, ← root]
            by_cases top : next.u8_0 = T.root
            · have past : ¬ T.Crosses (goal T pe.dst) next.u8_0 := fun c => c.1 top
              rw [if_pos (crosses.mpr (.inl top)), if_pos top, if_neg past, add_zero]
            · rw [if_neg top, zero_add]
              by_cases ahead : T.Crosses (goal T pe.dst) next.u8_0
              · rw [if_pos (crosses.mpr (.inr ahead)), if_pos ahead]
              · rw [if_neg (fun c => (crosses.mp c).elim top ahead), if_neg ahead]
        | deliver | drop => trivial
    | inject | arrive | lose => trivial
  have entries : ((s.flow nodes).born.map fun t => ({t.2} : Multiset PktEntry)).sum =
      (s.log.born.map Prod.snd : List PktEntry) := by
    rw [flow_born, ← Multiset.map_coe]
    generalize (s.log.born : Multiset (LinkAddr × PktEntry)) = born
    rw [← Multiset.sum_map_singleton (born.map Prod.snd), Multiset.map_map]
    rfl
  calc _ ≤ ((s.flow nodes).moves.map fun m => toSink (m.2.1, m.2.2)).sum +
        (s.flow nodes).total (rootAhead T) := Multiset.le_add_right _ _
    _ = ((s.flow nodes).born.map (rootAhead T)).sum := Flow.balance_empty priced
    _ ≤ ((s.flow nodes).born.map fun t => ({t.2} : Multiset PktEntry)).sum := by
        refine Multiset.sum_map_le_sum_map _ _ fun t _ => ?_
        rw [rootAhead]
        split
        · exact le_rfl
        · exact Multiset.zero_le _
    _ = _ := entries

/-- All arrivals of one source are its stream. -/
theorem stream_origin (log : List Nat) (src : UInt8) :
    stream (log.map fun n => (origen, n)) src = if src = origen then log else [] := by
  induction log with
  | nil => simp [stream]
  | cons n log ih =>
      rw [List.map_cons, stream_cons, ih]
      by_cases own : src = origen
      · rw [if_pos own.symm, if_pos own, if_pos own]
      · rw [if_neg (Ne.symm own), if_neg own, if_neg own]

/-- Let there be one origin, whose number has not wrapped, and packets be routed only while the routes are
    those of a tree. Then node 1 never receives a number twice, its table has no entry but one of the origin,
    and what that one says is exact: it counts each number that has arrived, the greatest of them is the
    greatest number in the table, and the loss that it prints is the number of packets up to that one that
    have not arrived. -/
theorem sink_statistics_exact (big : 128 ≤ packetbufSize) (addrs : PlainAddrs nodes) (root : T.root = 1)
    {origin : LinkAddr} (isOrigin : origin.u8_0 = origen) (only : ∀ i ∈ nodes, i.u8_0 = origen → i = origin)
    (run : Run (System.step nodes packetbufSize) (RoutedAlong nodes T) System.boot trace s)
    (bound : turns origin trace < 65536) :
    (sinkLog trace).Nodup ∧ (∀ n ∈ sinkLog trace, 1 ≤ n ∧ n ≤ turns origin trace) ∧
    (sinkLog trace ≠ [] → ∃ ps ∈ (s.data sinkAddr).pktStatsTable, ps.srcId = origen) ∧
    (s.data sinkAddr).pktStatsTable.length ≤ 1 ∧
    ∀ ps ∈ (s.data sinkAddr).pktStatsTable, ps.srcId = origen ∧ ps.received = (sinkLog trace).length ∧
      ps.seqMax = top (sinkLog trace) ∧ Exact ps (sinkLog trace) := by
  have counts := run_sinkCounts big run
  obtain ⟨gone, split, arrived⟩ := counts.landed
  obtain ⟨-, numbered⟩ := run_numbered big isOrigin only run bound
  -- What has arrived was born, each packet once.
  have bornOnce : (s.log.born.map Prod.snd).Nodup := by
    refine numbered.nodup.map_on fun t member u member' same => ?_
    obtain ⟨n, -, -, rfl⟩ := numbered.born t member
    obtain ⟨m, -, -, rfl⟩ := numbered.born u member'
    exact congrArg (Prod.mk origin) same
  have sub : sinkEntries trace ≤ (s.log.born.map Prod.snd : List PktEntry) := by
    have sent := sent_to_root big addrs root run
    rw [split] at sent
    exact arrived.trans ((Multiset.le_add_left _ _).trans sent)
  have nodup : (sinkLog trace).Nodup :=
    List.Nodup.of_map _ (Multiset.coe_nodup.mp (Multiset.nodup_of_le sub (Multiset.coe_nodup.mpr bornOnce)))
  have range : ∀ n ∈ sinkLog trace, 1 ≤ n ∧ n ≤ turns origin trace := by
    intro n member
    have listed : numberedEntry n origen destino ∈ s.log.born.map Prod.snd :=
      Multiset.mem_coe.mp (Multiset.mem_of_le sub (Multiset.mem_coe.mpr (List.mem_map_of_mem member)))
    obtain ⟨t, born, same⟩ := List.mem_map.mp listed
    obtain ⟨m, low, high, rfl⟩ := numbered.born t born
    have own := numberedEntry_injective (by omega) (counts.numbered n member) same
    omega
  have length : (sinkLog trace).length ≤ turns origin trace := by
    have inside : (sinkLog trace).toFinset ⊆ Finset.Icc 1 (turns origin trace) := fun n member =>
      Finset.mem_Icc.mpr (range n (List.mem_toFinset.mp member))
    have card := Finset.card_le_card inside
    rwa [List.toFinset_card_of_nodup nodup, Nat.card_Icc, Nat.add_sub_cancel] at card
  have counted : ∀ ps ∈ (s.data sinkAddr).pktStatsTable, ps.srcId = origen ∧
      ps.seqMax = top (sinkLog trace) ∧ ps.received = (sinkLog trace).length % 65536 := by
    intro ps member
    obtain ⟨some_, seqMax, received⟩ := counts.table.counts.counted ps member
    rw [stream_origin] at some_ seqMax received
    have own : ps.srcId = origen := by
      by_contra other
      rw [if_neg other] at some_
      exact some_ rfl
    rw [if_pos own] at seqMax received
    exact ⟨own, seqMax, received⟩
  refine ⟨nodup, range, fun heard => ?_, ?_, fun ps member => ?_⟩
  · have silent : ∀ src, src ∉ ({origen} : Finset UInt8) →
        stream ((sinkLog trace).map fun n => (origen, n)) src = [] := fun src other => by
      rw [stream_origin, if_neg (Finset.mem_singleton.not.mp other)]
    have few := (firstSeen_length_le silent).trans (by decide : Finset.card {origen} ≤ maxPktSources)
    refine ⟨summary origen (sinkLog trace), (counts.table.mem_iff_of_few few).mpr ?_, rfl⟩
    change stream _ origen ≠ [] ∧ _ = summary origen (stream _ origen)
    rw [stream_origin, if_pos rfl]
    exact ⟨heard, rfl⟩
  · -- Its entries are of different sources, and all of the origin.
    have ids := counts.table.counts.nodup
    rw [List.eq_replicate_of_mem (List.forall_mem_map.mpr fun ps member => (counted ps member).1),
      List.nodup_replicate, List.length_map] at ids
    exact ids
  · obtain ⟨own, seqMax, received⟩ := counted ps member
    refine ⟨own, received.trans (Nat.mod_eq_of_lt (by omega)), seqMax, ?_⟩
    rw [exact_iff counts.numbered seqMax received,
      stale_of_nodup nodup fun n arrived => (range n arrived).1]
    exact Nat.dvd_zero _

/-- Node 1 counts the packet that passes it. -/
theorem sink_statistics_exact_star :
    ∃ trace s, Run (System.step starNodes 128) (RoutedAlong starNodes star) System.boot trace s ∧
      sinkLog trace = [1] ∧
      ∃ ps, (s.data sinkAddr).pktStatsTable = [ps] ∧ ps.srcId = origen ∧ ps.received = 1 ∧ Exact ps [1] := by
  obtain ⟨s₀, grown, inv, known⟩ := starGrows_known
  let carries : List SystemAction := .generate ⟨8, 0⟩ true :: starCarries
  have ends : ((execute (System.step starNodes 128) System.boot starGrows).map fun s =>
      ((execute (System.step starNodes 128) s carries).isSome,
        sinkLog (history (System.step starNodes 128) s carries ++
          history (System.step starNodes 128) System.boot starGrows),
        turns ⟨8, 0⟩ (history (System.step starNodes 128) s carries ++
          history (System.step starNodes 128) System.boot starGrows))) = some (true, [1], 1) := by
    decide +kernel
  rw [grown, Option.map_some] at ends
  obtain ⟨possible, logs⟩ := Prod.mk.inj (Option.some.inj ends)
  obtain ⟨log, born⟩ := Prod.mk.inj logs
  obtain ⟨s, executed⟩ := Option.isSome_iff_exists.mp possible
  have before : Run (System.step starNodes 128) (RoutedAlong starNodes star) System.boot _ s₀ :=
    Run.of_execute _ (by simp [starGrows, starReports, RoutedAlong]) grown
  have after : Run (System.step starNodes 128) (RoutedAlong starNodes star) s₀ _ s :=
    (known.stays (by decide) inv (by decide) executed).weaken fun _ _ _ fine _ => fine.1.routed.along
  have run := before.append after
  have bound : turns ⟨8, 0⟩ (history (System.step starNodes 128) s₀ carries ++
      history (System.step starNodes 128) System.boot starGrows) < 65536 := by
    rw [born]
    decide
  obtain ⟨-, -, heard, one, exact_⟩ :=
    sink_statistics_exact (by decide) ⟨by decide, by decide, by decide⟩ rfl rfl (by decide) run bound
  rw [log] at heard exact_
  obtain ⟨_, listed, -⟩ := heard (List.cons_ne_nil _ _)
  obtain ⟨ps, table⟩ := List.length_eq_one_iff.mp (le_antisymm one (List.length_pos_of_mem listed))
  obtain ⟨own, received, -, fits⟩ := exact_ ps (by simp [table])
  exact ⟨_, s, run, log, ps, table, own, received, fits⟩

end TreeRssi
