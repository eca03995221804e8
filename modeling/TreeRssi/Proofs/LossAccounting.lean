/-
Module: TreeRssi.Proofs.LossAccounting
Layer: Proofs
Purpose: The packet statistics of the sink. `seq_max` is the greatest sequence number that arrived and
  `received` the number of arrivals, both of 16 bits, so their difference is the number of packets that
  never arrived exactly if the arrivals that brought nothing new are a multiple of 65536. One repeated
  packet is enough for a loss of 65535.
Imports: TreeRssi.Lib.KeyedStreams, TreeRssi.Lib.Run, TreeRssi.Lib.SequenceLog, TreeRssi.Proofs.DataHop,
  Mathlib (sublists up to order)
Trusted boundary: none
Main exports: DataArrival, sinkStep, logOf, summary, Summarises, Counts, Exact, repeated_arrival,
  lossAccounting_exact
Open obligations: none
-/
import Mathlib.Data.List.Perm.Subperm
import TreeRssi.Lib.KeyedStreams
import TreeRssi.Lib.Run
import TreeRssi.Lib.SequenceLog
import TreeRssi.Proofs.DataHop

namespace TreeRssi

open CText LabelledRun SequenceLog KeyedStreams

/-! ### Arrivals at the sink -/

/-- A data packet that the last hop hands to the sink: its destination, and the number and the source
    that `generate_pkt_dst` gave it. -/
structure DataArrival where
  hop : LinkAddr
  dst : UInt8
  seq : Nat
  src : UInt8
  numbered : seq < 65536
  known : src ≠ 0
deriving DecidableEq, Repr

/-- `DST:<d>:SEQ:<seq>:<src>:Hi` -/
def DataArrival.text (arrival : DataArrival) : List UInt8 :=
  dstTag ++ decimal arrival.dst.toNat ++ ch ':' :: seqText arrival.seq arrival.src

/-- The bytes of the packet. -/
def DataArrival.raw (arrival : DataArrival) : List UInt8 := uData :: (arrival.text ++ [0])

/-- The sink receives a packet. -/
def sinkStep (self : LinkAddr) (s : DataState) (arrival : DataArrival) : Option DataState :=
  some (s.receive self arrival.hop arrival.raw)

/-- The numbers that arrived from a source, the latest first. -/
def logOf (src : UInt8) (trace : List (DataState × DataArrival)) : List Nat :=
  trace.filterMap fun e => if e.2.src = src then some e.2.seq else none

/-- The sources from which packets arrived. -/
def sources (trace : List (DataState × DataArrival)) : Finset UInt8 :=
  (trace.map fun e => e.2.src).toFinset

/-! ### Parsing -/

theorem seqText_length {seq : Nat} (numbered : seq < 65536) (src : UInt8) :
    (seqText seq src).length ≤ 16 := by
  have number : (decimal seq).length ≤ 5 := decimal_length_le (by decide) (by omega)
  have source := decimal_u8_length src
  simp only [seqText, seqTag, List.length_append, List.length_cons, List.length_nil]
  omega

theorem seqText_ne_zero (seq : Nat) (src : UInt8) : ∀ b ∈ seqText seq src, b ≠ 0 := by
  intro b member
  simp only [seqText, List.mem_append, List.mem_cons, List.not_mem_nil, or_false] at member
  rcases member with (inTag | inSeq) | rfl | inSrc | rfl | rfl | rfl
  · exact ne_zero_of_all (by decide) b inTag
  · exact decimal_ne_zero _ b inSeq
  · decide
  · exact decimal_ne_zero _ b inSrc
  · decide
  · decide
  · decide

/-- The packet of a numbered entry is the one that the sender puts on the air for it. -/
theorem DataArrival.raw_eq_sent {packetbufSize : Nat} (big : 128 ≤ packetbufSize) (arrival : DataArrival)
    (self nextHop : LinkAddr) (s : DataState) :
    (sendPacket packetbufSize self nextHop s
      ⟨arrival.dst, strncpyMsg (seqText arrival.seq arrival.src)⟩).2.data = arrival.raw := by
  have length := seqText_length arrival.numbered arrival.src
  rw [sendPacket_data big, packetText, strncpyMsg_text (seqText_ne_zero _ _)
    (by simp only [dataMsgSize]; omega)]
  rfl

/-- What the origin queues is a numbered entry: its packet is one that the sink counts. -/
theorem generatePktDst_arrival (self : LinkAddr) (s : DataState) :
    (s.generatePktDst self).pktList = s.pktList ∨
      ∃ arrival : DataArrival, arrival.src = self.u8_0 ∧ arrival.seq = (s.generatePktDst self).seqNum ∧
        (s.generatePktDst self).pktList =
          ⟨arrival.dst, strncpyMsg (seqText arrival.seq arrival.src)⟩ :: s.pktList := by
  rw [DataState.generatePktDst]
  split
  next origin =>
    simp only
    split
    · have numbered : u16 (s.seqNum + 1) < 65536 := Nat.mod_lt _ (by decide)
      have known : self.u8_0 ≠ 0 := by
        rw [origin]
        decide
      exact .inr ⟨⟨self, destino, u16 (s.seqNum + 1), self.u8_0, numbered, known⟩, rfl, rfl, rfl⟩
    · exact .inl rfl
  next => exact .inl rfl

theorem DataArrival.text_ne_zero (arrival : DataArrival) : ∀ b ∈ arrival.text, b ≠ 0 := by
  intro b member
  simp only [DataArrival.text, List.mem_append, List.mem_cons] at member
  rcases member with (inTag | inDst) | rfl | inSeq
  · exact ne_zero_of_all (by decide) b inTag
  · exact decimal_ne_zero _ b inDst
  · decide
  · exact seqText_ne_zero _ _ b inSeq

/-- The sink reads the number and the source of a packet. -/
theorem parseStats_text (arrival : DataArrival) :
    parseStats arrival.text = (arrival.seq, arrival.src) := by
  obtain ⟨tagged, behind⟩ := tag_cases (ch 'D') (ch 'S') (ch 'T') (ch ':')
    (decimal arrival.dst.toNat ++ ch ':' :: seqText arrival.seq arrival.src)
  obtain ⟨tagged', behind'⟩ := tag_cases (ch 'S') (ch 'E') (ch 'Q') (ch ':')
    (decimal arrival.seq ++ ch ':' :: (decimal arrival.src.toNat ++ [ch ':', ch 'H', ch 'i']))
  have numbered := arrival.numbered
  have seq : toU16 (arrival.seq : Int) = arrival.seq := by
    rw [toU16]
    omega
  have src : toU8 (atoi (decimal arrival.src.toNat ++ [ch ':', ch 'H', ch 'i'])) = arrival.src := by
    rw [atoi_field (by have := arrival.src.toNat_lt; omega), toU8_natCast]
  rw [parseStats, DataArrival.text, List.append_assoc, dstTag]
  simp only [tagged, behind, if_true, skipField_decimal]
  rw [seqText, List.append_assoc, seqTag]
  simp only [tagged', behind', if_true, skipField_decimal]
  rw [atoi_field (by omega), seq, src]

/-- The message that the sink reads is the whole text of the packet. -/
theorem DataArrival.recvUc_raw (arrival : DataArrival) :
    ∃ msg, recvUc arrival.raw = .data msg ∧ cstr msg = arrival.text := by
  have length := seqText_length arrival.numbered arrival.src
  have digits := decimal_u8_length arrival.dst
  have whole : arrival.text.take (dataMsgSize - 1) = arrival.text := by
    apply List.take_of_length_le
    simp only [DataArrival.text, dstTag, dataMsgSize, List.length_append, List.length_cons,
      List.length_nil]
    omega
  obtain ⟨msg, received, read⟩ := recvUc_data arrival.text_ne_zero
  exact ⟨msg, received, read.trans whole⟩

/-- A packet changes the statistics of the sink as `updateStats` does. -/
theorem receive_stats {self : LinkAddr} (sink : self.u8_0 = 1) (s : DataState) (arrival : DataArrival) :
    (s.receive self arrival.hop arrival.raw).pktStatsTable =
      updateStats arrival.src arrival.seq s.pktStatsTable := by
  obtain ⟨msg, received, read⟩ := arrival.recvUc_raw
  rw [s.receive_pktStatsTable received, if_pos sink, read, parseStats_text]

/-! ### Counting -/

/-- The outcomes of `updateStats` for a source other than 0. -/
inductive Counted (table : List PktStats) (src : UInt8) (seq : Nat) : List PktStats → Prop where
  | again (before : List PktStats) (ps : PktStats) (after : List PktStats)
      (at_ : table = before ++ ps :: after) (own : ps.srcId = src) :
      Counted table src seq (before ++ ps.count seq :: after)
  | first (none : ∀ ps ∈ table, ps.srcId ≠ src) (room : table.length < maxPktSources) :
      Counted table src seq
        (table ++ [({ srcId := src, seqMax := 0, received := 0 } : PktStats).count seq])
  | full (none : ∀ ps ∈ table, ps.srcId ≠ src) (full : maxPktSources ≤ table.length) :
      Counted table src seq table

theorem countIn_none {src : UInt8} {seq : Nat} {table : List PktStats}
    (none_ : countIn src seq table = none) : ∀ ps ∈ table, ps.srcId ≠ src := by
  induction table with
  | nil => simp
  | cons ps rest ih =>
      rw [countIn] at none_
      split at none_
      · cases none_
      next other => exact List.forall_mem_cons.mpr ⟨other, ih (Option.map_eq_none_iff.mp none_)⟩

theorem countIn_some {src : UInt8} {seq : Nat} {table updated : List PktStats}
    (some_ : countIn src seq table = some updated) : Counted table src seq updated := by
  have parts : ∃ before ps after, table = before ++ ps :: after ∧ ps.srcId = src ∧
      updated = before ++ ps.count seq :: after := by
    induction table generalizing updated with
    | nil => cases some_
    | cons ps rest ih =>
        rw [countIn] at some_
        split at some_
        next own =>
          cases some_
          exact ⟨[], ps, rest, rfl, own, rfl⟩
        next other =>
          obtain ⟨tail, found, rfl⟩ := Option.map_eq_some_iff.mp some_
          obtain ⟨before, entry, after, rfl, own, rfl⟩ := ih found
          exact ⟨ps :: before, entry, after, rfl, own, rfl⟩
  obtain ⟨before, ps, after, at_, own, rfl⟩ := parts
  exact .again before ps after at_ own

theorem updateStats_cases {src : UInt8} (known : src ≠ 0) (seq : Nat) (table : List PktStats) :
    Counted table src seq (updateStats src seq table) := by
  rw [updateStats, if_neg known]
  cases found : countIn src seq table with
  | none =>
      have noEntry := countIn_none found
      by_cases room : table.length < maxPktSources
      · simpa only [room, if_true] using .first noEntry room
      · simpa only [room, if_false] using .full noEntry (Nat.not_lt.mp room)
  | some updated => exact countIn_some found

/-- What the table says of a source: the greatest number and the number of arrivals modulo 65536. -/
def summary (src : UInt8) (log : List Nat) : PktStats where
  srcId := src
  seqMax := top log
  received := log.length % 65536

/-- Counting one more arrival. -/
theorem summary_count (src : UInt8) (log : List Nat) (seq : Nat) :
    (summary src log).count seq = summary src (seq :: log) := by
  have greatest : (if seq > top log then seq else top log) = top (seq :: log) := by
    change _ = max seq (top log)
    split <;> omega
  have received : u16 (log.length % 65536 + 1) = (seq :: log).length % 65536 := by
    rw [List.length_cons, u16]
    omega
  change PktStats.mk src _ _ = PktStats.mk src _ _
  rw [← greatest, ← received]
  rfl

/-- The table has the summary of each of the first 20 sources. -/
abbrev Summarises (arrivals : List (UInt8 × Nat)) (table : List PktStats) : Prop :=
  Tabulates maxPktSources PktStats.srcId summary arrivals table

/-- The table summarises one more arrival. -/
theorem Summarises.update {arrivals : List (UInt8 × Nat)} {table table' : List PktStats}
    (summarises : Summarises arrivals table) {src : UInt8} {seq : Nat}
    (counted : Counted table src seq table') : Summarises ((src, seq) :: arrivals) table' := by
  have keyed : ∀ src log, (summary src log).srcId = src := fun _ _ => rfl
  cases counted with
  | again before ps after at_ own =>
      have listed : ps ∈ table := by simp [at_]
      have ids : (before ++ ps.count seq :: after).map PktStats.srcId = table.map PktStats.srcId := by
        simp [at_, PktStats.count]
      have nodup := summarises.nodup
      rw [at_, List.map_append, List.map_cons] at nodup
      have alone := (List.nodup_cons.mp (List.nodup_middle.mp nodup)).1
      rw [← List.map_append, own] at alone
      refine summarises.again keyed (own ▸ List.mem_map_of_mem listed) (.of_eq ids) fun e member => ?_
      rcases List.mem_append.mp member with early | rest
      · exact .inr ⟨by simp [at_, early], fun same => alone (same ▸ List.mem_map_of_mem (by simp [early]))⟩
      · rcases List.mem_cons.mp rest with rfl | late
        · have counts := summarises.entries ps listed
          rw [own] at counts
          exact .inl (by rw [counts, summary_count])
        · exact .inr ⟨by simp [at_, late], fun same => alone (same ▸ List.mem_map_of_mem (by simp [late]))⟩
  | first none room =>
      have absent : src ∉ table.map PktStats.srcId := fun old => by
        obtain ⟨ps, member, same⟩ := List.mem_map.mp old
        exact none ps member same
      refine summarises.first keyed absent room ?_ fun e member => ?_
      · rw [List.map_append]
        exact List.perm_append_singleton _ _
      · rcases List.mem_append.mp member with old | last
        · exact .inr old
        · exact .inl ((List.mem_singleton.mp last).trans (summary_count src [] seq))
  | full none full =>
      refine summarises.full (fun old => ?_) full
      obtain ⟨ps, member, same⟩ := List.mem_map.mp old
      exact none ps member same

/-- The table counts the logs: one entry for each of at most 20 sources, with the greatest number and the
    number of arrivals modulo 65536. -/
structure Counts (table : List PktStats) (logs : UInt8 → List Nat) : Prop where
  nodup : (table.map PktStats.srcId).Nodup
  counted : ∀ ps ∈ table, logs ps.srcId ≠ [] ∧ ps.seqMax = top (logs ps.srcId) ∧
    ps.received = (logs ps.srcId).length % 65536
  untracked : ∀ src, (∀ ps ∈ table, ps.srcId ≠ src) → logs src = [] ∨ maxPktSources ≤ table.length

theorem Summarises.counts {arrivals : List (UInt8 × Nat)} {table : List PktStats}
    (summarises : Summarises arrivals table) : Counts table (stream arrivals) := by
  refine ⟨summarises.nodup, fun ps member => ?_, fun src absent => ?_⟩
  · obtain ⟨seen, own⟩ := summarises.mem_iff.mp member
    refine ⟨mem_firstSeen.mp (List.mem_of_mem_take seen), ?_, ?_⟩
    · exact congrArg PktStats.seqMax own
    · exact congrArg PktStats.received own
  · by_cases few : (firstSeen arrivals).length ≤ maxPktSources
    · left
      by_contra heard
      have own : summary src (stream arrivals src) ∈ table :=
        (summarises.mem_iff_of_few few).mpr ⟨heard, rfl⟩
      exact absent _ own rfl
    · right
      rw [summarises.length_eq]
      omega

variable {self : LinkAddr} {trace : List (DataState × DataArrival)} {s : DataState}

theorem logOf_eq_stream (src : UInt8) (trace : List (DataState × DataArrival)) :
    logOf src trace = stream (trace.map fun e => (e.2.src, e.2.seq)) src := by
  rw [logOf, stream, List.filterMap_map]
  rfl

/-- In every run the table counts the logs. -/
theorem run_counts (sink : self.u8_0 = 1)
    (run : Run (sinkStep self) anyStep DataState.boot trace s) :
    Counts s.pktStatsTable fun src => logOf src trace := by
  have summarises : Summarises (trace.map fun e => (e.2.src, e.2.seq)) s.pktStatsTable := by
    induction run with
    | nil => exact .nil
    | @snoc trace s s' arrival _ _ stepped ih =>
        cases stepped
        rw [receive_stats sink]
        exact ih.update (updateStats_cases arrival.known arrival.seq _)
  simp only [logOf_eq_stream]
  exact summarises.counts

/-! ### Losses -/

/-- What the printed table says of a source is right: `lost` is the number of its packets that never
    arrived, and the loss is a percentage. -/
def Exact (ps : PktStats) (log : List Nat) : Prop :=
  ps.lost = ((Finset.Icc 1 ps.seqMax).filter (· ∉ log)).card ∧ ps.lossPct ≤ 100

/-- A loss that does not exceed the greatest number is a percentage. -/
theorem lossPct_le {ps : PktStats} (bound : ps.lost ≤ ps.seqMax) : ps.lossPct ≤ 100 := by
  rw [PktStats.lossPct]
  split
  next positive =>
    have quotient : ps.lost * 100 / ps.seqMax ≤ 100 := by
      apply Nat.div_le_of_le_mul
      exact Nat.mul_le_mul_right 100 bound
    rw [u16, Nat.mod_eq_of_lt (Nat.lt_of_le_of_lt quotient (by decide))]
    exact quotient
  next => exact Nat.zero_le _

/-- The entry of a log is exact if and only if its stale arrivals are a multiple of 65536. -/
theorem exact_iff {ps : PktStats} {log : List Nat} (numbered : ∀ seq ∈ log, seq < 65536)
    (seqMax : ps.seqMax = top log) (received : ps.received = log.length % 65536) :
    Exact ps log ↔ 65536 ∣ stale log := by
  have arrivals := length_eq_stale_add_fresh log
  have numbers := missing_add_fresh log
  have small : top log < 65536 := top_lt (by decide) numbered
  have lost : ps.lost = missing log ↔ 65536 ∣ stale log := by
    rw [PktStats.lost, toU16, seqMax, received]
    omega
  rw [Exact, seqMax]
  change ps.lost = missing log ∧ ps.lossPct ≤ 100 ↔ _
  rw [lost, and_iff_left_iff_imp]
  intro multiple
  apply lossPct_le
  rw [lost.mpr multiple, seqMax]
  exact missing_le_top log

theorem logOf_numbered (src : UInt8) (trace : List (DataState × DataArrival)) :
    ∀ seq ∈ logOf src trace, seq < 65536 := by
  intro seq member
  obtain ⟨e, -, taken⟩ := List.mem_filterMap.mp member
  obtain ⟨-, same⟩ := Option.ite_none_right_eq_some.mp taken
  cases same
  exact e.2.numbered

theorem mem_sources_of_logOf {src : UInt8} (arrived : logOf src trace ≠ []) : src ∈ sources trace := by
  obtain ⟨seq, member⟩ := List.exists_mem_of_ne_nil _ arrived
  obtain ⟨e, listed, taken⟩ := List.mem_filterMap.mp member
  obtain ⟨same, -⟩ := Option.ite_none_right_eq_some.mp taken
  rw [sources, List.mem_toFinset]
  exact List.mem_map.mpr ⟨e, listed, same⟩

theorem logOf_of_mem_sources {src : UInt8} (arrived : src ∈ sources trace) : logOf src trace ≠ [] := by
  obtain ⟨e, listed, same⟩ := List.mem_map.mp (List.mem_toFinset.mp arrived)
  have member : e.2.seq ∈ logOf src trace :=
    List.mem_filterMap.mpr ⟨e, listed, if_pos same⟩
  exact List.ne_nil_of_mem member

/-- Among at most 20 sources every one is tracked. -/
theorem Counts.tracked {table : List PktStats} (counts : Counts table fun src => logOf src trace)
    (few : (sources trace).card ≤ maxPktSources) {src : UInt8} (arrived : src ∈ sources trace) :
    ∃ ps ∈ table, ps.srcId = src := by
  by_contra none
  have absent : ∀ ps ∈ table, ps.srcId ≠ src := fun ps member same => none ⟨ps, member, same⟩
  have full := (counts.untracked src absent).resolve_left (logOf_of_mem_sources arrived)
  -- The full table and the new source would be 21 sources.
  have nodup : (src :: table.map PktStats.srcId).Nodup := by
    refine List.nodup_cons.mpr ⟨fun old => ?_, counts.nodup⟩
    obtain ⟨ps, member, same⟩ := List.mem_map.mp old
    exact absent ps member same
  have inside : src :: table.map PktStats.srcId ⊆ (sources trace).toList := by
    refine List.cons_subset.mpr ⟨Finset.mem_toList.mpr arrived, fun id old => ?_⟩
    obtain ⟨ps, member, rfl⟩ := List.mem_map.mp old
    exact Finset.mem_toList.mpr (mem_sources_of_logOf (counts.counted ps member).1)
  have count := (nodup.subperm inside).length_le
  rw [List.length_cons, List.length_map, Finset.length_toList] at count
  omega

/-- A packet that arrives twice makes a loss of 65535. -/
theorem repeated_arrival :
    ¬ ∀ (self : LinkAddr), self.u8_0 = 1 → ∀ trace s,
      Run (sinkStep self) anyStep DataState.boot trace s → (sources trace).card ≤ maxPktSources →
      ∀ ps ∈ s.pktStatsTable, Exact ps (logOf ps.srcId trace) := by
  intro exact_
  let arrival : DataArrival :=
    { hop := ⟨2, 0⟩, dst := 17, seq := 1, src := 8, numbered := by decide, known := by decide }
  have twice : ((execute (sinkStep ⟨1, 0⟩) .boot [arrival, arrival]).map fun s => s.pktStatsTable) =
      some [⟨8, 1, 2⟩] := by
    decide +kernel
  obtain ⟨s, executed, table⟩ := Option.map_eq_some_iff.mp twice
  have run := Run.of_execute anyStep (fun _ _ _ => trivial) executed
  have wrong := exact_ ⟨1, 0⟩ rfl _ s run (by decide +kernel) ⟨8, 1, 2⟩ (by simp [table])
  have loss : PktStats.lossPct ⟨8, 1, 2⟩ = 65436 := by decide
  rw [Exact, loss] at wrong
  exact absurd wrong.2 (by decide)

/-- In every run of arrivals at the sink each of at most 20 sources is tracked, and what the printed
    table says of a tracked source is exact if and only if the arrivals from it that brought nothing new,
    with number 0 or with a number that had arrived before, are a multiple of 65536. -/
theorem lossAccounting_exact (sink : self.u8_0 = 1)
    (run : Run (sinkStep self) anyStep DataState.boot trace s) :
    ((sources trace).card ≤ maxPktSources →
      ∀ src ∈ sources trace, ∃ ps ∈ s.pktStatsTable, ps.srcId = src) ∧
    ∀ ps ∈ s.pktStatsTable, ps.seqMax = top (logOf ps.srcId trace) ∧
      (Exact ps (logOf ps.srcId trace) ↔ 65536 ∣ stale (logOf ps.srcId trace)) := by
  have counts := run_counts sink run
  refine ⟨fun few src arrived => counts.tracked few arrived, fun ps member => ?_⟩
  obtain ⟨-, seqMax, received⟩ := counts.counted ps member
  exact ⟨seqMax, exact_iff (logOf_numbered _ _) seqMax received⟩

/-- Packets 4, 1 and 2 of node 8 arrive in that order, through two neighbours, and packet 3 is lost. -/
def reordered : List DataArrival :=
  [⟨⟨2, 0⟩, 17, 4, 8, by decide, by decide⟩, ⟨⟨3, 0⟩, 17, 1, 8, by decide, by decide⟩,
    ⟨⟨2, 0⟩, 17, 2, 8, by decide, by decide⟩]

/-- The table counts three of four packets, and says exactly that one is lost. -/
theorem lossAccounting_exact_reordered :
    ∃ trace s, Run (sinkStep ⟨1, 0⟩) anyStep DataState.boot trace s ∧ logOf 8 trace = [2, 1, 4] ∧
      s.pktStatsTable = [⟨8, 4, 3⟩] ∧ Exact ⟨8, 4, 3⟩ (logOf 8 trace) := by
  have arrived : ((execute (sinkStep ⟨1, 0⟩) .boot reordered).map fun s => s.pktStatsTable) =
      some [⟨8, 4, 3⟩] := by
    decide +kernel
  have log : logOf 8 (history (sinkStep ⟨1, 0⟩) .boot reordered) = [2, 1, 4] := by
    decide +kernel
  obtain ⟨s, executed, table⟩ := Option.map_eq_some_iff.mp arrived
  have run := Run.of_execute anyStep (fun _ _ _ => trivial) executed
  refine ⟨_, s, run, log, table, ?_⟩
  refine ((lossAccounting_exact rfl run).2 ⟨8, 4, 3⟩ (by simp [table])).2.mpr ?_
  rw [log]
  exact ⟨0, rfl⟩

end TreeRssi
