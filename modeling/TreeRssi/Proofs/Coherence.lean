/-
Module: TreeRssi.Proofs.Coherence
Layer: Proofs
Purpose: Whether the elected parent fits the list of candidates, at one node and under any beacons. Two
  branches break it: `register_parent` keeps the old parent when no candidate is left, and
  `keepalive_expired` drops the parent without an election although candidates are left. For each of the
  two callbacks the condition under which it does what its sibling does is exact.
Imports: TreeRssi.Lib.Run, TreeRssi.Proofs.Election
Trusted boundary: none
Main exports: Designated, Coherent, run_tracked, incoherent_election, registerParent_coherent,
  lost_failover, keepaliveExpired_failover
Open obligations: none
-/
import TreeRssi.Lib.Run
import TreeRssi.Proofs.Election

namespace TreeRssi

open LabelledRun

/-! ### The parent and the list -/

/-- The parent and the path sum are those of a listed entry of greatest eligible sum. -/
def Designated (state : ParentState) : Prop :=
  ∃ w, Winner state.preferredParentList w ∧ state.bestParentId = w.id ∧ state.myPathRssi = w.rssiP

/-- Some listed entry is eligible. -/
def HasCandidate (list : List PreferredParent) : Prop := ∃ q ∈ list, Eligible q.rssiP

/-- `best_parent_id` is null and `my_path_rssi` is -1000. -/
def NoParent (state : ParentState) : Prop :=
  state.bestParentId = linkaddrNull ∧ state.myPathRssi = noPath

/-- The parent is a best candidate, or there is neither a candidate nor a parent. -/
def Coherent (state : ParentState) : Prop :=
  (HasCandidate state.preferredParentList ∧ Designated state) ∨
    (¬ HasCandidate state.preferredParentList ∧ NoParent state)

/-- The parent is a best candidate whenever there is one. -/
def Tracks (state : ParentState) : Prop := HasCandidate state.preferredParentList → Designated state

theorem Winner.candidate {list : List PreferredParent} {w : PreferredParent} (winner : Winner list w) :
    HasCandidate list := ⟨w, winner.listed, winner.eligible⟩

theorem Designated.above {state : ParentState} (designated : Designated state) :
    noPath < state.myPathRssi := by
  obtain ⟨w, winner, -, sum⟩ := designated
  rw [sum]
  exact winner.eligible.1

/-! ### One step -/

variable {self sender : LinkAddr} {state state' : ParentState} {rssiP rssiA : Int}

/-- The list after a stored beacon. -/
theorem Stores.some (stores : Stores state sender) :
    ∃ list, storeEntry sender rssiP rssiA state.preferredParentList = some list := by
  cases stored : storeEntry sender rssiP rssiA state.preferredParentList with
  | some list => exact ⟨list, rfl⟩
  | none =>
      obtain ⟨full, absent⟩ := storeEntry_none stored
      rcases stores with ⟨q, member, same⟩ | room
      · exact absurd same (absent q member)
      · exact absurd room (Nat.not_lt.mpr full)

/-- Candidates after a stored beacon: the sender, or another neighbour that was one before. -/
theorem hasCandidate_stored (nodup : IdsNodup state.preferredParentList) {list : List PreferredParent}
    (stored : storeEntry sender rssiP rssiA state.preferredParentList = some list) :
    HasCandidate list ↔
      Eligible rssiP ∨ ∃ q ∈ state.preferredParentList, q.id ≠ sender ∧ Eligible q.rssiP := by
  constructor
  · rintro ⟨q, member, eligible⟩
    rcases (storeEntry_mem nodup stored q).mp member with rfl | ⟨old, other⟩
    · exact .inl eligible
    · exact .inr ⟨q, old, other, eligible⟩
  · rintro (eligible | ⟨q, old, other, eligible⟩)
    · exact ⟨⟨sender, rssiP, rssiA⟩, (storeEntry_mem nodup stored _).mpr (.inl rfl), eligible⟩
    · exact ⟨q, (storeEntry_mem nodup stored _).mpr (.inr ⟨old, other⟩), eligible⟩

/-- A stored beacon leaves a coherent parent exactly if a candidate is left or there was no parent. -/
theorem Registered.coherent_iff (registered : Registered self state sender rssiP rssiA state')
    (notRoot : self.u8_0 ≠ 1) (nodup : IdsNodup state.preferredParentList)
    (stores : Stores state sender) :
    Coherent state' ↔
      (Eligible rssiP ∨ ∃ q ∈ state.preferredParentList, q.id ≠ sender ∧ Eligible q.rssiP) ∨
        NoParent state := by
  cases registered with
  | refused full =>
      obtain ⟨list, stored⟩ : ∃ list, storeEntry sender rssiP rssiA state.preferredParentList =
        some list := stores.some
      rw [full] at stored
      cases stored
  | root _ isRoot => exact absurd isRoot notRoot
  | @nobody list stored _ nobody =>
      have none : ¬ HasCandidate list := fun ⟨q, member, eligible⟩ => nobody q member eligible
      rw [← hasCandidate_stored nodup stored, Coherent]
      change (HasCandidate list ∧ _) ∨ (¬ HasCandidate list ∧ NoParent state) ↔ _
      simp [none]
  | @elected list w stored _ winner =>
      rw [← hasCandidate_stored nodup stored]
      have candidate := winner.candidate
      exact iff_of_true (.inl ⟨candidate, w, winner, rfl, rfl⟩) (.inl candidate)

/-- A beacon is refused, or it leaves the parent a best candidate. -/
theorem Registered.tracks (registered : Registered self state sender rssiP rssiA state')
    (notRoot : self.u8_0 ≠ 1) : state' = state ∨ Tracks state' := by
  cases registered with
  | refused _ => exact .inl rfl
  | root _ isRoot => exact absurd isRoot notRoot
  | nobody _ _ nobody => exact .inr fun ⟨q, member, eligible⟩ => absurd eligible (nobody q member)
  | @elected list w _ _ winner => exact .inr fun _ => ⟨w, winner, rfl, rfl⟩

/-- Candidates after an expiry: the other neighbours that were. -/
theorem hasCandidate_expired {p : PreferredParent} (nodup : IdsNodup state.preferredParentList)
    (listed : p ∈ state.preferredParentList) :
    HasCandidate (keepaliveExpired state p).preferredParentList ↔
      ∃ q ∈ state.preferredParentList, q.id ≠ p.id ∧ Eligible q.rssiP := by
  constructor
  · rintro ⟨q, member, eligible⟩
    obtain ⟨old, other⟩ := (mem_keepaliveExpired nodup listed).mp member
    exact ⟨q, old, other, eligible⟩
  · rintro ⟨q, old, other, eligible⟩
    exact ⟨q, (mem_keepaliveExpired nodup listed).mpr ⟨old, other⟩, eligible⟩

/-- The parent's own expiry leaves no parent. -/
theorem keepaliveExpired_own {p : PreferredParent} (own : state.bestParentId = p.id) :
    NoParent (keepaliveExpired state p) := by
  simp [NoParent, keepaliveExpired, own]

/-- The expiry of another neighbour leaves a best candidate the parent. -/
theorem Designated.expired {p : PreferredParent} (designated : Designated state)
    (nodup : IdsNodup state.preferredParentList) (listed : p ∈ state.preferredParentList)
    (other : state.bestParentId ≠ p.id) : Designated (keepaliveExpired state p) := by
  obtain ⟨w, winner, parent, sum⟩ := designated
  have same := keepaliveExpired_other other
  have inside : ∀ q ∈ (keepaliveExpired state p).preferredParentList, q ∈ state.preferredParentList :=
    fun q member => ((mem_keepaliveExpired nodup listed).mp member).1
  refine ⟨w, ⟨?_, winner.eligible, fun q member => winner.greatest q (inside q member)⟩, ?_, ?_⟩
  · exact (mem_keepaliveExpired nodup listed).mpr ⟨winner.listed, fun away => other (parent.trans away)⟩
  · rw [same.1, parent]
  · rw [same.2, sum]

theorem Tracks.expired {p : PreferredParent} (tracks : Tracks state)
    (nodup : IdsNodup state.preferredParentList) (listed : p ∈ state.preferredParentList)
    (other : state.bestParentId ≠ p.id) : Tracks (keepaliveExpired state p) := by
  intro candidate
  obtain ⟨q, old, -, eligible⟩ := (hasCandidate_expired nodup listed).mp candidate
  exact (tracks ⟨q, old, eligible⟩).expired nodup listed other

/-! ### Every reachable state -/

/-- What holds in every run of a node other than the root: each neighbour is listed once, and the parent
    is a best candidate or there is none. -/
structure Tracked (state : ParentState) : Prop where
  nodup : IdsNodup state.preferredParentList
  tracks : Tracks state ∨ NoParent state

theorem Tracked.next (notRoot : self.u8_0 ≠ 1) {event : NeighbourEvent} (tracked : Tracked state)
    (stepped : state.next self event = some state') : Tracked state' := by
  cases event with
  | beacon sender received lastRssi =>
      obtain ⟨-, same⟩ := Option.ite_none_right_eq_some.mp stepped
      cases same
      have registered := registerParent_cases self state sender received lastRssi
      refine ⟨registered.nodup tracked.nodup, ?_⟩
      rcases registered.tracks notRoot with same | tracks
      · rw [same]
        exact tracked.tracks
      · exact .inl tracks
  | expire p =>
      obtain ⟨listed, same⟩ := Option.ite_none_right_eq_some.mp stepped
      cases same
      refine ⟨keepaliveExpired_nodup tracked.nodup p, ?_⟩
      by_cases own : state.bestParentId = p.id
      · exact .inr (keepaliveExpired_own own)
      · rcases tracked.tracks with tracks | none
        · exact .inl (tracks.expired tracked.nodup listed own)
        · have same := keepaliveExpired_other own
          exact .inr ⟨same.1.trans none.1, same.2.trans none.2⟩

theorem noCandidate_boot (self : LinkAddr) :
    ¬ HasCandidate (selectPreferedParent self).preferredParentList := by
  rintro ⟨q, member, -⟩
  cases member

variable {ok : ParentState → NeighbourEvent → Prop} {trace : List (ParentState × NeighbourEvent)}

theorem run_tracked (notRoot : self.u8_0 ≠ 1)
    (run : Run (ParentState.next self) ok (selectPreferedParent self) trace state) : Tracked state :=
  run.invariant (I := Tracked)
    ⟨List.nodup_nil, .inl fun candidate => absurd candidate (noCandidate_boot self)⟩
    fun _ _ _ tracked _ stepped => tracked.next notRoot stepped

/-! ### The election on a beacon -/

/-- A parent that announces that it has lost its route stays the parent. -/
theorem incoherent_election :
    ¬ ∀ (self : LinkAddr), self.u8_0 ≠ 1 → ∀ trace state,
      Run (ParentState.next self) anyStep (selectPreferedParent self) trace state →
      ∀ sender received lastRssi, InRange received lastRssi → Stores state sender →
        Coherent (registerParent self state sender received lastRssi) := by
  intro coherent
  let parent : PreferredParent := ⟨⟨3, 0⟩, -150, -50⟩
  let state : ParentState := ⟨[parent], ⟨3, 0⟩, -150⟩
  have run : Run (ParentState.next ⟨2, 0⟩) anyStep (selectPreferedParent ⟨2, 0⟩)
      [(selectPreferedParent ⟨2, 0⟩, .beacon ⟨3, 0⟩ ⟨⟨3, 0⟩, -100⟩ (-50))] state :=
    .snoc .nil trivial (by decide)
  have after := coherent ⟨2, 0⟩ (by decide) _ state run ⟨3, 0⟩ ⟨⟨3, 0⟩, -1000⟩ (-50) (by decide)
    (by decide)
  have kept : registerParent ⟨2, 0⟩ state ⟨3, 0⟩ ⟨⟨3, 0⟩, -1000⟩ (-50) =
      ⟨[⟨⟨3, 0⟩, -1050, -50⟩], ⟨3, 0⟩, -150⟩ := by
    decide
  rw [kept] at after
  rcases after with ⟨⟨q, member, eligible⟩, -⟩ | ⟨-, none⟩
  · cases List.mem_singleton.mp member
    exact absurd eligible (by decide)
  · exact absurd none.1 (by decide)

/-- After the store some neighbour is a candidate, or the node had no parent before. -/
def LeavesCandidate (state : ParentState) : NeighbourEvent → Prop
  | .beacon sender received lastRssi =>
      (Eligible (int16 (received.rssiP + lastRssi)) ∨
        ∃ q ∈ state.preferredParentList, q.id ≠ sender ∧ Eligible q.rssiP) ∨ NoParent state
  | .expire _ => True

theorem Tracked.coherent_iff (tracked : Tracked state) (notRoot : self.u8_0 ≠ 1) (received : Beacon)
    (lastRssi : Int) (stores : Stores state sender) :
    Coherent (registerParent self state sender received lastRssi) ↔
      LeavesCandidate state (.beacon sender received lastRssi) :=
  (registerParent_cases self state sender received lastRssi).coherent_iff notRoot tracked.nodup stores

/-- In every reachable state a stored beacon leaves the parent coherent with the list exactly if some
    neighbour is a candidate then or the node had no parent before; so in every run whose beacons all are
    of that kind, every stored beacon leaves the parent coherent with the list. -/
theorem registerParent_coherent (notRoot : self.u8_0 ≠ 1) :
    (∀ trace state, Run (ParentState.next self) anyStep (selectPreferedParent self) trace state →
      ∀ sender received lastRssi, Stores state sender →
        (Coherent (registerParent self state sender received lastRssi) ↔
          LeavesCandidate state (.beacon sender received lastRssi))) ∧
    ∀ trace state before sender received lastRssi,
      Run (ParentState.next self) LeavesCandidate (selectPreferedParent self)
        ((before, .beacon sender received lastRssi) :: trace) state →
      Stores before sender → Coherent state := by
  refine ⟨fun trace state run sender received lastRssi stores =>
    (run_tracked notRoot run).coherent_iff notRoot received lastRssi stores, ?_⟩
  intro trace state before sender received lastRssi run stores
  cases run with
  | snoc run allowed stepped =>
      obtain ⟨-, same⟩ := Option.ite_none_right_eq_some.mp stepped
      cases same
      exact ((run_tracked notRoot run).coherent_iff notRoot received lastRssi stores).mpr allowed

/-- Node 2 hears nodes 3 and 4, and elects node 3. -/
def twoHeard : List NeighbourEvent :=
  [.beacon ⟨3, 0⟩ ⟨⟨3, 0⟩, -100⟩ (-50), .beacon ⟨4, 0⟩ ⟨⟨4, 0⟩, -100⟩ (-60)]

theorem execute_twoHeard : execute (ParentState.next ⟨2, 0⟩) (selectPreferedParent ⟨2, 0⟩) twoHeard =
    some ⟨[⟨⟨4, 0⟩, -160, -60⟩, ⟨⟨3, 0⟩, -150, -50⟩], ⟨3, 0⟩, -150⟩ := by
  decide

/-- When node 3 announces that it has lost its route, node 4 becomes the parent. -/
theorem registerParent_coherent_worseParent :
    ∃ trace state, Run (ParentState.next ⟨2, 0⟩) anyStep (selectPreferedParent ⟨2, 0⟩) trace state ∧
      state.bestParentId = ⟨3, 0⟩ ∧
      registerParent ⟨2, 0⟩ state ⟨3, 0⟩ ⟨⟨3, 0⟩, -1000⟩ (-50) =
        ⟨[⟨⟨4, 0⟩, -160, -60⟩, ⟨⟨3, 0⟩, -1050, -50⟩], ⟨4, 0⟩, -160⟩ ∧
      Coherent (registerParent ⟨2, 0⟩ state ⟨3, 0⟩ ⟨⟨3, 0⟩, -1000⟩ (-50)) := by
  have run := Run.of_execute anyStep (fun _ _ _ => trivial) execute_twoHeard
  refine ⟨_, _, run, rfl, by decide, ?_⟩
  exact ((registerParent_coherent (by decide)).1 _ _ run ⟨3, 0⟩ ⟨⟨3, 0⟩, -1000⟩ (-50) (by decide)).mpr
    (.inl (.inr ⟨⟨⟨4, 0⟩, -160, -60⟩, by decide, by decide, by decide⟩))

/-! ### The expiry of a neighbour -/

/-- The parent is a best candidate whenever there is one, and there is no parent only when there is no
    candidate. -/
def FailsOver (state : ParentState) : Prop :=
  (HasCandidate state.preferredParentList → Designated state) ∧
    (NoParent state → ¬ HasCandidate state.preferredParentList)

theorem failsOver_iff : FailsOver state ↔ Tracks state := by
  refine ⟨And.left, fun tracks => ⟨tracks, fun none candidate => ?_⟩⟩
  have above := (tracks candidate).above
  rw [none.2] at above
  exact absurd above (Int.lt_irrefl _)

/-- The parent expires while another candidate is listed, and the node is left without a parent. -/
theorem lost_failover :
    ¬ ∀ (self : LinkAddr), self.u8_0 ≠ 1 → ∀ trace state,
      Run (ParentState.next self) anyStep (selectPreferedParent self) trace state →
      ∀ p ∈ state.preferredParentList,
        (∀ q ∈ (keepaliveExpired state p).preferredParentList, q.id ≠ p.id) ∧
          FailsOver (keepaliveExpired state p) := by
  intro failsOver
  let parent : PreferredParent := ⟨⟨3, 0⟩, -150, -50⟩
  let other : PreferredParent := ⟨⟨4, 0⟩, -160, -60⟩
  have run := Run.of_execute anyStep (fun _ _ _ => trivial) execute_twoHeard
  obtain ⟨-, -, onlyThen⟩ := failsOver ⟨2, 0⟩ (by decide) _ _ run parent (by decide)
  exact onlyThen (keepaliveExpired_own rfl) ⟨other, by decide, by decide⟩

/-- No other neighbour is a candidate, or the expired one is not the parent and the node has one. -/
def KeepsParent (state : ParentState) : NeighbourEvent → Prop
  | .beacon _ _ _ => True
  | .expire p =>
      (∀ q ∈ state.preferredParentList, q.id ≠ p.id → ¬ Eligible q.rssiP) ∨
        (state.bestParentId ≠ p.id ∧ state.myPathRssi ≠ noPath)

/-- An expiry leaves a best candidate the parent exactly if nobody else is one or the parent stays. -/
theorem Tracked.tracks_expired_iff {p : PreferredParent} (tracked : Tracked state)
    (listed : p ∈ state.preferredParentList) :
    Tracks (keepaliveExpired state p) ↔ KeepsParent state (.expire p) := by
  have left := hasCandidate_expired tracked.nodup listed
  constructor
  · intro tracks
    by_cases candidate : HasCandidate (keepaliveExpired state p).preferredParentList
    · have above := (tracks candidate).above
      right
      by_cases own : state.bestParentId = p.id
      · rw [(keepaliveExpired_own own).2] at above
        exact absurd above (Int.lt_irrefl _)
      · rw [(keepaliveExpired_other own).2] at above
        exact ⟨own, (Int.ne_of_lt above).symm⟩
    · left
      intro q listed' other eligible
      exact candidate (left.mpr ⟨q, listed', other, eligible⟩)
  · rintro (nobody | ⟨other, hasParent⟩)
    · intro candidate
      obtain ⟨q, listed', other, eligible⟩ := left.mp candidate
      exact absurd eligible (nobody q listed' other)
    · rcases tracked.tracks with tracks | none
      · exact tracks.expired tracked.nodup listed other
      · exact absurd none.2 hasParent

/-- Where every expiry keeps a parent, the parent is a best candidate in every state. -/
theorem run_tracks (notRoot : self.u8_0 ≠ 1)
    (run : Run (ParentState.next self) KeepsParent (selectPreferedParent self) trace state) :
    Tracks state := by
  induction run with
  | nil => exact fun candidate => absurd candidate (noCandidate_boot self)
  | @snoc trace state state' event run allowed stepped ih =>
      cases event with
      | beacon sender received lastRssi =>
          obtain ⟨-, same⟩ := Option.ite_none_right_eq_some.mp stepped
          cases same
          rcases (registerParent_cases self state sender received lastRssi).tracks notRoot with
            same | tracks
          · rw [same]
            exact ih
          · exact tracks
      | expire p =>
          obtain ⟨listed, same⟩ := Option.ite_none_right_eq_some.mp stepped
          cases same
          exact ((run_tracked notRoot run).tracks_expired_iff listed).mpr allowed

/-- In every reachable state an expiry removes the entry, and it leaves a best candidate the parent
    exactly if no other neighbour is a candidate or the expired one is not the parent and the node has
    one; so in every run whose expiries all are of that kind, the parent is a best candidate in every
    state. -/
theorem keepaliveExpired_failover (notRoot : self.u8_0 ≠ 1) :
    (∀ trace state, Run (ParentState.next self) anyStep (selectPreferedParent self) trace state →
      ∀ p ∈ state.preferredParentList,
        (∀ q ∈ (keepaliveExpired state p).preferredParentList, q.id ≠ p.id) ∧
          (FailsOver (keepaliveExpired state p) ↔ KeepsParent state (.expire p))) ∧
    ∀ trace state, Run (ParentState.next self) KeepsParent (selectPreferedParent self) trace state →
      FailsOver state := by
  refine ⟨fun trace state run p listed => ⟨fun q member => ?_, ?_⟩, fun trace state run => ?_⟩
  · exact ((mem_keepaliveExpired (run_tracked notRoot run).nodup listed).mp member).2
  · rw [failsOver_iff]
    exact (run_tracked notRoot run).tracks_expired_iff listed
  · rw [failsOver_iff]
    exact run_tracks notRoot run

/-- A neighbour that is not the parent expires, and the parent stays. -/
theorem keepaliveExpired_failover_other :
    FailsOver (keepaliveExpired
      ⟨[⟨⟨4, 0⟩, -160, -60⟩, ⟨⟨3, 0⟩, -150, -50⟩], ⟨3, 0⟩, -150⟩ ⟨⟨4, 0⟩, -160, -60⟩) := by
  have run := Run.of_execute anyStep (fun _ _ _ => trivial) execute_twoHeard
  exact ((keepaliveExpired_failover (by decide)).1 _ _ run ⟨⟨4, 0⟩, -160, -60⟩ (by decide)).2.mpr
    (.inr (by decide))

end TreeRssi
