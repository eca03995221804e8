/-
Module: TreeRssi.Proofs.StatsSummary
Layer: Proofs
Purpose: What the statistics table of the sink says after any sequence of packets. Each of the first 20
  sources has one entry, with the number of its arrivals modulo 65536 and its greatest sequence number;
  packets of other sources change nothing. While no more than 20 sources arrive, the entries do not depend
  on the order of the arrivals.
Imports: TreeRssi.Proofs.LossAccounting
Trusted boundary: none
Main exports: countedPacket, packetStep, countedArrivals, run_summarises, pktStats_summary
Open obligations: none
-/
import TreeRssi.Proofs.LossAccounting

namespace TreeRssi

open CText LabelledRun SequenceLog KeyedStreams

/-! ### Arrivals -/

/-- The source and the number that the sink reads in a packet, if it counts the packet. -/
def countedPacket (raw : List UInt8) : Option (UInt8 × Nat) :=
  match recvUc raw with
  | .data msg =>
      let stats := parseStats (cstr msg)
      if stats.2 = 0 then none else some (stats.2, stats.1)
  | _ => none

/-- A packet of any bytes arrives at the node `self` from some hop. -/
def packetStep (self : LinkAddr) (s : DataState) (packet : LinkAddr × List UInt8) : Option DataState :=
  some (s.receive self packet.1 packet.2)

/-- The counted packets of a run, the latest first. -/
def countedArrivals (trace : List (DataState × (LinkAddr × List UInt8))) : List (UInt8 × Nat) :=
  trace.filterMap fun e => countedPacket e.2.2

variable {self source : LinkAddr} {raw : List UInt8} {src : UInt8} {seq : Nat}

/-- A packet that is not counted leaves the table alone. -/
theorem receive_uncounted (s : DataState) (uncounted : countedPacket raw = none) :
    (s.receive self source raw).pktStatsTable = s.pktStatsTable := by
  rw [countedPacket] at uncounted
  cases received : recvUc raw with
  | data msg =>
      simp only [received, ite_eq_left_iff, reduceCtorEq, imp_false, not_not] at uncounted
      rw [s.receive_pktStatsTable received, uncounted, updateStats, if_pos rfl, ite_self]
  | nothing => rw [s.receive_other (by simp [received])]
  | control payload => rw [s.receive_other (by simp [received])]

/-- A counted packet changes the table as `updateStats` does. -/
theorem receive_counted (sink : self.u8_0 = 1) (s : DataState)
    (counted : countedPacket raw = some (src, seq)) :
    Counted s.pktStatsTable src seq (s.receive self source raw).pktStatsTable := by
  rw [countedPacket] at counted
  cases received : recvUc raw with
  | data msg =>
      simp only [received, Option.ite_none_left_eq_some, Option.some.injEq, Prod.mk.injEq] at counted
      obtain ⟨known, rfl, rfl⟩ := counted
      rw [s.receive_pktStatsTable received, if_pos sink]
      exact updateStats_cases known _ _
  | nothing => simp [received] at counted
  | control payload => simp [received] at counted

/-! ### Runs -/

variable {trace : List (DataState × (LinkAddr × List UInt8))} {s : DataState}

/-- In every run the table summarises the counted packets. -/
theorem run_summarises (sink : self.u8_0 = 1) (run : Run (packetStep self) anyStep .boot trace s) :
    Summarises (countedArrivals trace) s.pktStatsTable := by
  induction run with
  | nil => exact .nil
  | @snoc trace s s' packet _ _ stepped ih =>
      cases stepped
      cases counted : countedPacket packet.2 with
      | none =>
          have skipped : countedArrivals ((s, packet) :: trace) = countedArrivals trace :=
            List.filterMap_cons_none counted
          rw [skipped, receive_uncounted s counted]
          exact ih
      | some arrival =>
          have grown : countedArrivals ((s, packet) :: trace) = arrival :: countedArrivals trace :=
            List.filterMap_cons_some counted
          rw [grown]
          exact ih.update (receive_counted sink s counted)

/-- A packet of a source that is not among the first 20 changes nothing. -/
theorem Summarises.untouched {arrivals : List (UInt8 × Nat)} {table table' : List PktStats}
    (summarises : Summarises arrivals table) (counted : Counted table src seq table')
    (late : src ∉ (firstSeen ((src, seq) :: arrivals)).take maxPktSources) : table' = table := by
  have absent : src ∉ table'.map PktStats.srcId := fun listed =>
    late ((summarises.update counted).keys.mem_iff.mp listed)
  cases counted with
  | again before ps after at_ own => exact absurd (by simp [PktStats.count, own]) absent
  | first none room => exact absurd (by simp [PktStats.count]) absent
  | full none full => rfl

/-- Arrivals in another order have the same summaries. -/
theorem summary_perm {arrivals arrivals' : List (UInt8 × Nat)} (perm : arrivals.Perm arrivals')
    (src : UInt8) : summary src (stream arrivals src) = summary src (stream arrivals' src) := by
  have streams := stream_perm perm src
  rw [summary, summary, top_perm streams, streams.length_eq]

/-- After any packets at the sink, the table has one entry for each of the first 20 sources, with the number
    of its packets modulo 65536 and its greatest number; a packet of any other source leaves the table as
    it is; and if there are no more than 20 sources, the same packets in another order lead to the same
    entries. -/
theorem pktStats_summary (sink : self.u8_0 = 1) (run : Run (packetStep self) anyStep .boot trace s) :
    (s.pktStatsTable.map PktStats.srcId).Nodup ∧
    (∀ ps, ps ∈ s.pktStatsTable ↔
      ps.srcId ∈ (firstSeen (countedArrivals trace)).take maxPktSources ∧
        ps.received = (stream (countedArrivals trace) ps.srcId).length % 65536 ∧
        ps.seqMax = top (stream (countedArrivals trace) ps.srcId)) ∧
    (∀ source raw src seq, countedPacket raw = some (src, seq) →
      src ∉ (firstSeen ((src, seq) :: countedArrivals trace)).take maxPktSources →
      (s.receive self source raw).pktStatsTable = s.pktStatsTable) ∧
    ((firstSeen (countedArrivals trace)).length ≤ maxPktSources →
      ∀ trace' s', Run (packetStep self) anyStep .boot trace' s' →
        (trace'.map Prod.snd).Perm (trace.map Prod.snd) →
        ∀ ps, ps ∈ s'.pktStatsTable ↔ ps ∈ s.pktStatsTable) := by
  have summarises := run_summarises sink run
  refine ⟨summarises.nodup, fun ps => ?_, fun source raw src seq counted late => ?_,
    fun few trace' s' run' perm ps => ?_⟩
  · rw [summarises.mem_iff]
    refine and_congr_right fun _ => ?_
    constructor
    · exact fun own => ⟨congrArg PktStats.received own, congrArg PktStats.seqMax own⟩
    · rintro ⟨received, seqMax⟩
      rw [summary, ← received, ← seqMax]
  · exact summarises.untouched (receive_counted sink s counted) late
  · have counted : (countedArrivals trace').Perm (countedArrivals trace) := by
      have packets := perm.filterMap fun packet => countedPacket packet.2
      rw [List.filterMap_map, List.filterMap_map] at packets
      exact packets
    have sameKeys : ∀ src, stream (countedArrivals trace) src = [] ↔
        stream (countedArrivals trace') src = [] := fun src => by
      rw [← List.length_eq_zero_iff, ← (stream_perm counted src).length_eq, List.length_eq_zero_iff]
    exact (summarises.same_entries (run_summarises sink run') few sameKeys
      (fun src => (summary_perm counted src).symm) ps).symm

/-- A data packet for node 1 with the number `seq` of the source `src`. -/
def numberedPacket (seq : Nat) (src : UInt8) : LinkAddr × List UInt8 :=
  (⟨2, 0⟩, uData :: (dstTag ++ decimal 1 ++ ch ':' :: seqText seq src ++ [0]))

/-- Packets 2 and 1 of node 8 arrive around packet 5 of node 9, in any order. -/
theorem pktStats_summary_twoSources :
    ∃ trace s, Run (packetStep ⟨1, 0⟩) anyStep .boot trace s ∧
      s.pktStatsTable = [⟨8, 2, 2⟩, ⟨9, 5, 1⟩] ∧
      ∀ trace' s', Run (packetStep ⟨1, 0⟩) anyStep .boot trace' s' →
        (trace'.map Prod.snd).Perm (trace.map Prod.snd) →
        ∀ ps, ps ∈ s'.pktStatsTable ↔ ps ∈ s.pktStatsTable := by
  let packets := [numberedPacket 2 8, numberedPacket 5 9, numberedPacket 1 8]
  have counted : ((execute (packetStep ⟨1, 0⟩) .boot packets).map fun s => s.pktStatsTable) =
      some [⟨8, 2, 2⟩, ⟨9, 5, 1⟩] := by decide +kernel
  obtain ⟨s, executed, table⟩ := Option.map_eq_some_iff.mp counted
  have run := Run.of_execute anyStep (fun _ _ _ => trivial) executed
  exact ⟨_, s, run, table, (pktStats_summary rfl run).2.2.2 (by decide +kernel)⟩

end TreeRssi
