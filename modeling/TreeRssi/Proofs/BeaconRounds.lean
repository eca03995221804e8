/-
Module: TreeRssi.Proofs.BeaconRounds
Layer: Proofs
Purpose: Convergence of the neighbour plane in a bounded number of rounds. In a round every link carries
  at least one beacon; what else is heard, lost or repeated does not matter. A node that extends a best
  path of a node with its best sum has its best sum after one more round, and the nodes with a better
  one are fewer than the nodes of the network. With one round more every entry is up to date, and then
  no beacon changes anything.
Imports: TreeRssi.Lib.Rounds, TreeRssi.Proofs.PathOptimality
Trusted boundary: none
Main exports: BeaconRound, Elects, hear_improves, Ranked, run_ranked, Final, Fresh, Fresh.settled,
  beacons_settle
Open obligations: none
-/
import TreeRssi.Lib.Rounds
import TreeRssi.Proofs.PathOptimality

namespace TreeRssi

open LabelledRun BestPath

variable {nodes : Finset LinkAddr} {links : Links nodes} {net net' : BeaconNet} {action : BeaconAction}
  {trace : List (BeaconNet × BeaconAction)}

/-- In this part of a run every link carries a beacon. -/
def BeaconRound (links : Links nodes) (segment : List (BeaconNet × BeaconAction)) : Prop :=
  ∀ i j x, links.rssi i j = some x → ∃ net heard, (net, .beacon i heard) ∈ segment ∧
    (heard.lookup j).isSome

/-! ### One beacon -/

/-- What a node that hears a beacon over a link stores, and what its sum is then. -/
theorem hear_improves (few : links.FewNeighbours) (kept : RoutesKept net) (sums : SumsOfPaths links net)
    {i j : LinkAddr} {x : Int} (link : links.rssi i j = some x) :
    ⟨i, net.announced i + x, x⟩ ∈ (net.hear i j x).preferredParentList ∧
      (j.u8_0 ≠ 1 → Eligible (net.announced i + x) →
        net.announced i + x ≤ (net.hear i j x).myPathRssi) := by
  have range := links.range link
  have outcome := registerParent_cases j (net.parents j) i (broadcastRssi i (net.parents i)) x
  rw [stored_sum (fun h => (kept.chosen i h).listed) range.1 (by omega)] at outcome
  change Registered _ _ _ _ _ (net.hear i j x) at outcome
  generalize net.hear i j x = state at outcome
  cases outcome with
  | refused full =>
      obtain ⟨long, absent⟩ := storeEntry_none full
      exact absurd (sums.room few kept link absent) (Nat.not_lt.mpr long)
  | root stored isRoot =>
      exact ⟨(storeEntry_mem (kept.nodup j) stored _).mpr (.inl rfl), fun notRoot => absurd isRoot notRoot⟩
  | nobody stored _ none =>
      have member := (storeEntry_mem (kept.nodup j) stored _).mpr (.inl rfl)
      exact ⟨member, fun _ eligible => absurd eligible (none _ member)⟩
  | elected stored _ winner =>
      have member := (storeEntry_mem (kept.nodup j) stored _).mpr (.inl rfl)
      exact ⟨member, fun _ eligible => winner.greatest _ member eligible⟩

/-- The state of a receiver after a beacon over constant links. -/
theorem step_hear (allowed : OverLinks links net action)
    (stepped : BeaconNet.step nodes net action = some net') {i j : LinkAddr}
    {heard : List (LinkAddr × Int)} (beacon : action = .beacon i heard)
    (hears : (heard.lookup j).isSome) {x : Int} (link : links.rssi i j = some x) :
    net'.parents j = net.hear i j x := by
  subst beacon
  obtain ⟨y, found⟩ := Option.isSome_iff_exists.mp hears
  have same : x = y := Option.some.inj (link.symm.trans (allowed _ (mem_of_lookup found)))
  obtain ⟨-, after⟩ := Option.ite_none_right_eq_some.mp stepped
  cases after
  simp only [BeaconNet.broadcast, found, same, BeaconNet.hear]

/-- The parent and the sum are what the election makes of the list. -/
def Elects (state : ParentState) : Prop :=
  ∀ sum w, elect state.preferredParentList = (sum, some w) →
    state.bestParentId = w.id ∧ state.myPathRssi = sum

theorem registerParent_elects {self sender : LinkAddr} {state : ParentState} {received : Beacon}
    {lastRssi : Int} (notRoot : self.u8_0 ≠ 1) (elects : Elects state) :
    Elects (registerParent self state sender received lastRssi) := by
  rw [registerParent]
  split
  · exact elects
  next list _ =>
    rw [if_neg notRoot]
    split
    next none =>
      intro sum w elected
      rw [none] at elected
      cases elected
    next sum w elected =>
      intro sum' w' elected'
      cases elected.symm.trans elected'
      exact ⟨rfl, rfl⟩

/-- Storing an entry that is listed with the same values changes nothing. -/
theorem refreshEntry_same {list : List PreferredParent} {q : PreferredParent} (nodup : IdsNodup list)
    (listed : q ∈ list) : refreshEntry q.id q.rssiP q.rssiA list = some list := by
  induction list with
  | nil => cases listed
  | cons p rest ih =>
      rw [refreshEntry]
      by_cases same : p.id = q.id
      · cases nodup.eq_of_id (List.mem_cons_self ..) listed same
        rw [if_pos rfl]
      · have later : q ∈ rest := (List.mem_cons.mp listed).resolve_left fun first => same (first ▸ rfl)
        rw [if_neg same, ih (List.Nodup.of_cons nodup) later, Option.map_some]

/-- A beacon that repeats what is listed changes nothing. -/
theorem registerParent_same {self sender : LinkAddr} {state : ParentState} {received : Beacon}
    {lastRssi : Int} (elects : self.u8_0 ≠ 1 → Elects state)
    (nodup : IdsNodup state.preferredParentList)
    (listed : ⟨sender, int16 (received.rssiP + lastRssi), lastRssi⟩ ∈ state.preferredParentList) :
    registerParent self state sender received lastRssi = state := by
  have stored : storeEntry sender (int16 (received.rssiP + lastRssi)) lastRssi
      state.preferredParentList = some state.preferredParentList := by
    rw [storeEntry, refreshEntry_same nodup listed]
  rw [registerParent, stored]
  by_cases isRoot : self.u8_0 = 1
  · simp only [if_pos isRoot]
  · simp only [if_neg isRoot]
    split
    · rfl
    next sum w elected =>
      obtain ⟨best, path⟩ := elects isRoot sum w elected
      rw [← best, ← path]

/-- What holds in every run over constant links. -/
structure OverLinksInv (links : Links nodes) (net : BeaconNet) : Prop where
  kept : RoutesKept net
  sums : SumsOfPaths links net
  elects : ∀ j : LinkAddr, j.u8_0 ≠ 1 → Elects (net.parents j)

theorem OverLinksInv.cold (links : Links nodes) : OverLinksInv links BeaconNet.cold :=
  ⟨.cold, .cold links, fun _ _ _ _ elected => by cases elected⟩

theorem OverLinksInv.step (inv : OverLinksInv links net) (noNull : linkaddrNull ∉ nodes)
    (allowed : OverLinks links net action) (stepped : BeaconNet.step nodes net action = some net') :
    OverLinksInv links net' ∧ ∀ i, net.announced i ≤ net'.announced i := by
  have keeps := inv.sums.keepsRoute inv.kept noNull allowed
  refine ⟨⟨inv.kept.step keeps stepped, inv.sums.step inv.kept noNull allowed stepped,
    fun j notRoot => ?_⟩, inv.kept.announced_mono keeps stepped⟩
  generalize after : net'.parents j = state
  have atNode := step_node stepped j
  rw [after] at atNode
  cases atNode with
  | idle => exact inv.elects j notRoot
  | heard => exact registerParent_elects notRoot (inv.elects j notRoot)
  | expired => exact allowed.elim

/-! ### Best sums, rank by rank -/

/-- Every node has at least its best sum, if at most `k` nodes have a better one. -/
def Ranked (links : Links nodes) (k : Nat) (net : BeaconNet) : Prop :=
  ∀ v s, Best links.rssi (IsRoot nodes) v s → noPath < s → rank links.rssi (IsRoot nodes) s ≤ k →
    s ≤ net.announced v

/-- The vertex before the last on a best path has a lower rank. -/
theorem Links.pred (links : Links nodes) {v : LinkAddr} {s : Int}
    (best : Best links.rssi (IsRoot nodes) v s) : (IsRoot nodes v ∧ s = 0) ∨
      ∃ u t x, Best links.rssi (IsRoot nodes) u t ∧ links.rssi u v = some x ∧ s = t + x ∧ s < t ∧
        rank links.rssi (IsRoot nodes) t < rank links.rssi (IsRoot nodes) s := by
  refine best.pred.imp_right fun ⟨u, t, x, before, link, sum⟩ => ?_
  have negative := (links.range link).2
  have better : s < t := by omega
  refine ⟨u, t, x, before, link, sum, better, ?_⟩
  exact before.rank_lt nodes.finite_toSet (fun isRoot => isRoot.1) (fun link => (links.ends link).2.1) better

/-- A round takes every node of the next rank to its best sum. -/
theorem Ranked.climb (few : links.FewNeighbours) (noNull : linkaddrNull ∉ nodes) {k : Nat}
    {segment : List (BeaconNet × BeaconAction)} {mid : BeaconNet} (inv : OverLinksInv links mid)
    (ranked : Ranked links k mid) (run : Run (BeaconNet.step nodes) (OverLinks links) mid segment net)
    (round : BeaconRound links segment) : Ranked links (k + 1) net := by
  intro v s best above lower
  by_cases isRoot : v.u8_0 = 1
  · rw [BeaconNet.announced_root isRoot]
    exact best.1.nonpos fun link => by have := (links.range link).2; omega
  · obtain ⟨root, -⟩ | ⟨u, t, x, before, link, rfl, better, earlier⟩ := links.pred best
    · exact absurd root.2 isRoot
    · obtain ⟨pre, heard, member, hears⟩ := round u v x link
      -- The sum of `u` is there from the start of the round, and that of `v` since its beacon.
      refine run.since (I := fun net => OverLinksInv links net ∧ t ≤ net.announced u)
        (J := fun net => t + x ≤ net.announced v)
        ⟨inv, ranked u t before (by omega) (by omega)⟩ ?_ member ?_ ?_
      · intro s l s' ⟨inv, reached⟩ allowed stepped
        obtain ⟨inv', grow⟩ := inv.step noNull allowed stepped
        exact ⟨inv', Int.le_trans reached (grow u)⟩
      · intro post ⟨inv, reached⟩ allowed stepped
        have state := step_hear allowed stepped rfl hears link
        have bound := (announced_range fun h => (inv.kept.chosen u h).listed).2
        have negative := (links.range link).2
        have improved := (hear_improves few inv.kept inv.sums link).2 isRoot ⟨by omega, by omega⟩
        rw [BeaconNet.announced_of_not_root isRoot, state]
        omega
      · intro s l s' ⟨inv, _⟩ reached allowed stepped
        exact Int.le_trans reached ((inv.step noNull allowed stepped).2 v)

/-- After `k` rounds every node has its best sum to which fewer than `k` nodes are closer. -/
theorem run_ranked (few : links.FewNeighbours) (noNull : linkaddrNull ∉ nodes) {k : Nat}
    (run : Run (BeaconNet.step nodes) (OverLinks links) BeaconNet.cold trace net)
    (rounds : Rounds (BeaconRound links) k trace) : Ranked links k net := by
  refine rounds.level run (I := OverLinksInv links) (.cold links)
    (fun _ _ _ inv allowed stepped => (inv.step noNull allowed stepped).1) (fun s inv => ?_)
    (fun k segment mid s inv ranked part round => ranked.climb few noNull inv part round)
  intro v t best above none
  obtain ⟨root, rfl⟩ | ⟨u, t', x, -, -, -, -, earlier⟩ := links.pred best
  · rw [BeaconNet.announced_root root.2]
  · omega

/-! ### Everything up to date -/

/-- No path sum above -1000 is better than what its node announces. -/
def Dominates (links : Links nodes) (net : BeaconNet) : Prop :=
  ∀ v s, PathSum links.rssi (IsRoot nodes) v s → noPath < s → s ≤ net.announced v

/-- Once all ranks are done, every node announces its best sum. -/
theorem Ranked.dominates (ranked : Ranked links (nodes.card - 1) net) : Dominates links net := by
  intro v s path above
  obtain ⟨M, best⟩ := exists_greatest_pathSum links path
  have bound := best.2 path
  have lower : rank links.rssi (IsRoot nodes) M < nodes.card :=
    Best.rank_lt_card (fun isRoot => isRoot.1) (fun link => (links.ends link).2.1) best
  exact Int.le_trans bound (ranked v M best (by omega) (by omega))

/-- From then on nobody announces anything new. -/
theorem Dominates.same (dominates : Dominates links net) (inv : OverLinksInv links net)
    (noNull : linkaddrNull ∉ nodes) (allowed : OverLinks links net action)
    (stepped : BeaconNet.step nodes net action = some net') {i : LinkAddr} (member : i ∈ nodes) :
    net'.announced i = net.announced i := by
  obtain ⟨inv', grow⟩ := inv.step noNull allowed stepped
  have floor := (announced_range fun h => (inv.kept.chosen i h).listed).1
  refine Int.le_antisymm ?_ (grow i)
  rcases inv'.sums.announced inv'.kept member with none | path
  · rwa [none]
  · by_cases above : noPath < net'.announced i
    · exact dominates i _ path above
    · omega

/-- Every entry holds what its neighbour announces now. -/
def Fresh (links : Links nodes) (net : BeaconNet) : Prop :=
  ∀ i j x, links.rssi i j = some x → ⟨i, net.announced i + x, x⟩ ∈ (net.parents j).preferredParentList

/-- A beacon keeps every entry that it does not change. -/
theorem Registered.keeps {self sender : LinkAddr} {state state' : ParentState} {rssiP rssiA : Int}
    (registered : Registered self state sender rssiP rssiA state')
    (nodup : IdsNodup state.preferredParentList) {q : PreferredParent}
    (listed : q ∈ state.preferredParentList) (own : q.id = sender → q = ⟨sender, rssiP, rssiA⟩) :
    q ∈ state'.preferredParentList := by
  have stays : ∀ {list}, storeEntry sender rssiP rssiA state.preferredParentList = some list →
      q ∈ list := by
    intro list stored
    rw [storeEntry_mem nodup stored]
    by_cases same : q.id = sender
    · exact .inl (own same)
    · exact .inr ⟨listed, same⟩
  cases registered with
  | refused _ => exact listed
  | root stored _ => exact stays stored
  | nobody stored _ _ => exact stays stored
  | elected stored _ _ => exact stays stored

/-- The entry of a link stays up to date. -/
theorem Dominates.keepsEntry (dominates : Dominates links net) (inv : OverLinksInv links net)
    (noNull : linkaddrNull ∉ nodes) (allowed : OverLinks links net action)
    (stepped : BeaconNet.step nodes net action = some net') {i j : LinkAddr} {x : Int}
    (link : links.rssi i j = some x)
    (listed : ⟨i, net.announced i + x, x⟩ ∈ (net.parents j).preferredParentList) :
    ⟨i, net'.announced i + x, x⟩ ∈ (net'.parents j).preferredParentList := by
  rw [dominates.same inv noNull allowed stepped (links.ends link).1]
  generalize after : net'.parents j = state
  have atNode := step_node stepped j
  rw [after] at atNode
  cases atNode with
  | idle => exact listed
  | @heard sender heard rssi member =>
      have link' : links.rssi sender j = some rssi := allowed _ member
      have range := links.range link'
      have outcome := registerParent_cases j (net.parents j) sender
        (broadcastRssi sender (net.parents sender)) rssi
      rw [stored_sum (fun h => (inv.kept.chosen sender h).listed) range.1 (by omega)] at outcome
      refine outcome.keeps (inv.kept.nodup j) listed fun same => ?_
      have sender' : i = sender := same
      subst sender'
      cases link.symm.trans link'
      rfl
  | expired => exact allowed.elim

/-- One round more, and every entry is up to date. -/
theorem Dominates.fresh (few : links.FewNeighbours) (noNull : linkaddrNull ∉ nodes)
    {segment : List (BeaconNet × BeaconAction)} {mid : BeaconNet} (inv : OverLinksInv links mid)
    (dominates : Dominates links mid)
    (run : Run (BeaconNet.step nodes) (OverLinks links) mid segment net)
    (round : BeaconRound links segment) : Fresh links net := by
  intro i j x link
  obtain ⟨pre, heard, member, hears⟩ := round i j x link
  refine run.since (I := fun net => OverLinksInv links net ∧ Dominates links net)
    (J := fun net => ⟨i, net.announced i + x, x⟩ ∈ (net.parents j).preferredParentList)
    ⟨inv, dominates⟩ ?_ member ?_ ?_
  · intro s l s' ⟨inv, dominates⟩ allowed stepped
    obtain ⟨inv', grow⟩ := inv.step noNull allowed stepped
    exact ⟨inv', fun v t path above => Int.le_trans (dominates v t path above) (grow v)⟩
  · intro post ⟨inv, dominates⟩ allowed stepped
    rw [dominates.same inv noNull allowed stepped (links.ends link).1,
      step_hear allowed stepped rfl hears link]
    exact (hear_improves few inv.kept inv.sums link).1
  · intro s l s' ⟨inv, dominates⟩ listed allowed stepped
    exact dominates.keepsEntry inv noNull allowed stepped link listed

/-- Where every entry is up to date and every receiver has elected, no beacon changes anything. -/
theorem Fresh.settled (fresh : Fresh links net) (nodup : ∀ j, IdsNodup (net.parents j).preferredParentList)
    (listed : ∀ i : LinkAddr, i.u8_0 ≠ 1 → Listed (net.parents i))
    (elects : ∀ i j x, links.rssi i j = some x → j.u8_0 ≠ 1 → Elects (net.parents j)) :
    Settled links net := by
  intro i j x link
  have range := links.range link
  have current := fresh i j x link
  rw [← stored_sum (listed i) range.1 (by omega)] at current
  exact registerParent_same (elects i j x link) (nodup j) current

/-- In a settled state a node has the best path sum and traces it back to node 1, or has no parent. -/
theorem Settled.optimal (settled : Settled links net) (few : links.FewNeighbours)
    (inv : OverLinksInv links net) (noNull : linkaddrNull ∉ nodes) {i : LinkAddr} (notRoot : i.u8_0 ≠ 1) :
    (∀ M, Best links.rssi (IsRoot nodes) i M → noPath < M → (net.parents i).myPathRssi = M ∧
      ParentSum links.rssi (bestParent? net) (IsRoot nodes) i M) ∧
    ((∀ s, PathSum links.rssi (IsRoot nodes) i s → s ≤ noPath) →
      (net.parents i).myPathRssi = noPath ∧ (net.parents i).bestParentId = linkaddrNull) := by
  refine ⟨fun M best above => ?_, fun nothing => ?_⟩
  · have lower := settled.dominates few inv.kept inv.sums best.1 above
    rw [BeaconNet.announced_of_not_root notRoot] at lower
    have eligible : Eligible (net.parents i).myPathRssi :=
      ⟨Int.lt_of_lt_of_le above lower, (inv.kept.chosen i notRoot).listed.range.2⟩
    have value : (net.parents i).myPathRssi = M :=
      Int.le_antisymm (best.2 (inv.sums.own i notRoot eligible)) lower
    exact ⟨value, value ▸ settled.parentSum few inv.kept inv.sums noNull notRoot eligible⟩
  · rcases inv.kept.chosen i notRoot with ⟨none, value⟩ | ⟨eligible, -⟩
    · exact ⟨value, none⟩
    · exact absurd eligible.1 (Int.not_lt.mpr (nothing _ (inv.sums.own i notRoot eligible)))

/-- In a run with as many rounds of beacons as there are nodes, the state is settled. -/
theorem run_settled (few : links.FewNeighbours) (noNull : linkaddrNull ∉ nodes)
    (run : Run (BeaconNet.step nodes) (OverLinks links) BeaconNet.cold trace net)
    (rounds : Rounds (BeaconRound links) nodes.card trace) : OverLinksInv links net ∧ Settled links net := by
  have kept : ∀ s l s', OverLinksInv links s → OverLinks links s l → BeaconNet.step nodes s l = some s' →
      OverLinksInv links s' := fun _ _ _ inv allowed stepped => (inv.step noNull allowed stepped).1
  have inv := run.invariant (.cold links) kept
  refine ⟨inv, ?_⟩
  cases count : nodes.card with
  | zero =>
      intro i j x link
      have member := (links.ends link).1
      rw [Finset.card_eq_zero.mp count] at member
      exact absurd member (Finset.notMem_empty i)
  | succ n =>
      rw [count] at rounds
      cases rounds with
      | more before round =>
          -- All rounds but the last bring the best sums, and the last one the entries.
          obtain ⟨mid, early, late⟩ := run.split
          have ranked := run_ranked few noNull early before
          rw [← Nat.add_sub_cancel (n := n) (m := 1), ← count] at ranked
          have fresh := ranked.dominates.fresh few noNull (early.invariant (.cold links) kept) late round
          exact fresh.settled inv.kept.nodup (fun i notRoot => (inv.kept.chosen i notRoot).listed)
            fun _ j _ _ notRoot => inv.elects j notRoot

/-- Over constant links, of which no node hears more than its pool has blocks for, after as many rounds of
    beacons as there are nodes no beacon changes anything any more, and every node but node 1 has the best
    path sum and traces it back to node 1, or has no path above -1000 and no parent. -/
theorem beacons_settle (links : Links nodes) (few : links.FewNeighbours) (noNull : linkaddrNull ∉ nodes)
    (run : Run (BeaconNet.step nodes) (OverLinks links) BeaconNet.cold trace net)
    (rounds : Rounds (BeaconRound links) nodes.card trace) :
    Settled links net ∧ ∀ i : LinkAddr, i.u8_0 ≠ 1 →
      (∀ M, Best links.rssi (IsRoot nodes) i M → noPath < M → (net.parents i).myPathRssi = M ∧
        ParentSum links.rssi (bestParent? net) (IsRoot nodes) i M) ∧
      ((∀ s, PathSum links.rssi (IsRoot nodes) i s → s ≤ noPath) →
        (net.parents i).myPathRssi = noPath ∧ (net.parents i).bestParentId = linkaddrNull) := by
  obtain ⟨inv, settled⟩ := run_settled few noNull run rounds
  exact ⟨settled, fun i notRoot => settled.optimal few inv noNull notRoot⟩

/-- A beacon of node 1 that node 2 hears is a round of the network of two nodes. -/
theorem oneLink_round (net : BeaconNet) :
    BeaconRound oneLink [(net, .beacon ⟨1, 0⟩ [(⟨2, 0⟩, -10)])] := by
  intro i j x link
  obtain ⟨⟨rfl, rfl⟩, -⟩ := Option.ite_none_right_eq_some.mp link
  exact ⟨net, _, List.mem_singleton_self _, rfl⟩

/-- Two beacons over the link settle the network of two nodes. -/
theorem beacons_settle_oneLink :
    ∃ trace net, Run (BeaconNet.step {⟨1, 0⟩, ⟨2, 0⟩}) (OverLinks oneLink) BeaconNet.cold trace net ∧
      Settled oneLink net := by
  let beacon : BeaconAction := .beacon ⟨1, 0⟩ [(⟨2, 0⟩, -10)]
  have start : Run (BeaconNet.step {⟨1, 0⟩, ⟨2, 0⟩}) (OverLinks oneLink) BeaconNet.cold []
      BeaconNet.cold := .nil
  have once := start.snoc (l := beacon) (by simp [OverLinks, oneLink, beacon]) rfl
  have run := once.snoc (l := beacon) (by simp [OverLinks, oneLink, beacon]) rfl
  have rounds := ((Rounds.start []).more (oneLink_round BeaconNet.cold)).more
    (oneLink_round (BeaconNet.cold.broadcast ⟨1, 0⟩ [(⟨2, 0⟩, -10)]))
  exact ⟨_, _, run, (beacons_settle oneLink oneLink_few (by decide) run rounds).1⟩

end TreeRssi
