/-
Module: TreeRssi.Proofs.PathOptimality
Layer: Proofs
Purpose: With constant links and no expiry the election computes best paths. Every stored sum is an
  earlier announcement plus the link, and every announcement but -1000 is the sum of a real path from
  node 1, so no node overstates its route. When no beacon changes anything any more, no link can
  improve any sum, so every route is the best one and best parents trace it back to node 1.
Imports: TreeRssi.Proofs.LoopFreedom, Mathlib (greatest elements of sets of integers)
Trusted boundary: none
Main exports: OverLinks, Settled, SumsOfPaths, bestPath_optimal
Open obligations: none
-/
import Mathlib.Data.Int.LeastGreatest
import TreeRssi.Proofs.LoopFreedom

namespace TreeRssi

open LabelledRun BestPath

variable {nodes : Finset LinkAddr}

/-- Node 1. -/
def IsRoot (nodes : Finset LinkAddr) (i : LinkAddr) : Prop := i ∈ nodes ∧ i.u8_0 = 1

/-- Every beacon is heard with the RSSI of the link; nothing expires and nobody falls silent. -/
def OverLinks (links : Links nodes) (_ : BeaconNet) : BeaconAction → Prop
  | .beacon sender heard => ∀ e ∈ heard, links.rssi sender e.1 = some e.2
  | .expire _ _ => False
  | .silence _ => False

/-- Delivering any neighbour's current beacon to any node changes nothing. -/
def Settled (links : Links nodes) (net : BeaconNet) : Prop :=
  ∀ i j x, links.rssi i j = some x → net.hear i j x = net.parents j

/-- The sums of the paths from node 1 to `i`. -/
def pathSums (links : Links nodes) (i : LinkAddr) : Set Int :=
  {s | PathSum links.rssi (IsRoot nodes) i s}

/-- `best_parent_id` as an optional node. -/
def bestParent? (net : BeaconNet) (i : LinkAddr) : Option LinkAddr :=
  if (net.parents i).bestParentId = linkaddrNull then none else some (net.parents i).bestParentId

/-- What a node stores and announces are sums of real paths. -/
structure SumsOfPaths (links : Links nodes) (net : BeaconNet) : Prop where
  entry : ∀ i, ∀ q ∈ (net.parents i).preferredParentList, ∃ a x, links.rssi q.id i = some x ∧
    q.rssiP = a + x ∧ a ≤ net.announced q.id ∧
      (a = noPath ∨ PathSum links.rssi (IsRoot nodes) q.id a)
  own : ∀ i : LinkAddr, i.u8_0 ≠ 1 → Eligible (net.parents i).myPathRssi →
    PathSum links.rssi (IsRoot nodes) i (net.parents i).myPathRssi

theorem SumsOfPaths.cold (links : Links nodes) : SumsOfPaths links BeaconNet.cold where
  entry _ := by simp [BeaconNet.cold, selectPreferedParent]
  own i notRoot eligible := by
    have none : (BeaconNet.cold.parents i).myPathRssi = noPath := if_neg notRoot
    rw [none] at eligible
    exact absurd eligible.1 (Int.lt_irrefl _)

/-- An announcement is -1000 or the sum of a path. -/
theorem SumsOfPaths.announced {links : Links nodes} {net : BeaconNet} (sums : SumsOfPaths links net)
    (kept : RoutesKept net) {i : LinkAddr} (member : i ∈ nodes) :
    net.announced i = noPath ∨ PathSum links.rssi (IsRoot nodes) i (net.announced i) := by
  by_cases isRoot : i.u8_0 = 1
  · rw [BeaconNet.announced_root isRoot]
    exact .inr (.root ⟨member, isRoot⟩)
  · rw [BeaconNet.announced_of_not_root isRoot]
    rcases kept.chosen i isRoot with ⟨-, value⟩ | ⟨eligible, -⟩
    · exact .inl value
    · exact .inr (sums.own i isRoot eligible)

/-- An eligible sum is no announcement of -1000 plus a link, so it is the sum of a path. -/
theorem pathSum_of_eligible {links : Links nodes} {u v : LinkAddr} {a x : Int}
    (link : links.rssi u v = some x) (origin : a = noPath ∨ PathSum links.rssi (IsRoot nodes) u a)
    (eligible : Eligible (a + x)) : PathSum links.rssi (IsRoot nodes) v (a + x) := by
  rcases origin with none | path
  · have low := eligible.1
    have negative := (links.range link).2
    omega
  · exact .step path link

section Steps

variable {links : Links nodes} {net net' : BeaconNet} {action : BeaconAction}

/-- Over constant links a beacon never worsens the parent's entry: sums only grew since it was
    stored. -/
theorem SumsOfPaths.keepsRoute (sums : SumsOfPaths links net) (kept : RoutesKept net)
    (noNull : linkaddrNull ∉ nodes) (allowed : OverLinks links net action) :
    KeepsRoute net action := by
  cases action with
  | beacon sender heard =>
      intro e member
      have link := allowed e member
      have notNull : sender ≠ linkaddrNull := by
        rintro rfl
        exact noNull (links.ends link).1
      refine ⟨by have := (links.range link).2; omega, fun best => ?_⟩
      have notRoot : e.1.u8_0 ≠ 1 := fun isRoot =>
        notNull (best.symm.trans (kept.root e.1 isRoot))
      rcases kept.chosen e.1 notRoot with ⟨none, -⟩ | ⟨-, q, listed, same, value⟩
      · exact absurd (best.symm.trans none) notNull
      · obtain ⟨a, x, link', sum, grown, -⟩ := sums.entry e.1 q listed
        rw [same, best] at link' grown
        have rssi : e.2 = x := Option.some.inj (link.symm.trans link')
        omega
  | expire _ _ => exact allowed.elim
  | silence _ => exact allowed.elim

theorem SumsOfPaths.step (sums : SumsOfPaths links net) (kept : RoutesKept net)
    (noNull : linkaddrNull ∉ nodes) (allowed : OverLinks links net action)
    (stepped : BeaconNet.step nodes net action = some net') : SumsOfPaths links net' := by
  have keeps := sums.keepsRoute kept noNull allowed
  have grow := kept.announced_mono keeps stepped
  have entries : ∀ i, ∀ q ∈ (net'.parents i).preferredParentList, ∃ a x,
      links.rssi q.id i = some x ∧ q.rssiP = a + x ∧ a ≤ net.announced q.id ∧
        (a = noPath ∨ PathSum links.rssi (IsRoot nodes) q.id a) := by
    intro i q
    generalize after : net'.parents i = state
    have atNode := step_node stepped i
    rw [after] at atNode
    cases atNode with
    | idle => exact sums.entry i q
    | @heard sender heard rssi member canHear live =>
        intro listed
        have link : links.rssi sender i = some rssi := allowed _ member
        have range := links.range link
        have outcome := registerParent_cases i (net.parents i) sender
          (broadcastRssi sender (net.parents sender)) rssi
        rw [stored_sum (fun h => (kept.chosen sender h).listed) range.1 (by omega)] at outcome
        rcases outcome.mem (kept.nodup i) listed with rfl | old
        · exact ⟨_, rssi, link, rfl, Int.le_refl _, sums.announced kept live.1⟩
        · exact sums.entry i q old
    | expired _ => exact allowed.elim
  refine ⟨fun i q listed => ?_, fun i notRoot eligible => ?_⟩
  · obtain ⟨a, x, link, value, bound, origin⟩ := entries i q listed
    exact ⟨a, x, link, value, Int.le_trans bound (grow q.id), origin⟩
  · rcases (kept.step keeps stepped).chosen i notRoot with ⟨-, none⟩ | ⟨-, q, listed, -, value⟩
    · rw [none] at eligible
      exact absurd eligible.1 (Int.lt_irrefl _)
    · obtain ⟨a, x, link, sum, -, origin⟩ := entries i q listed
      rw [← value, sum] at eligible ⊢
      exact pathSum_of_eligible link origin eligible

end Steps

/-- Both invariants hold in every run over constant links. -/
theorem run_sumsOfPaths {links : Links nodes} {trace : List (BeaconNet × BeaconAction)}
    {net : BeaconNet} (noNull : linkaddrNull ∉ nodes)
    (run : Run (BeaconNet.step nodes) (OverLinks links) BeaconNet.cold trace net) :
    RoutesKept net ∧ SumsOfPaths links net := by
  apply run.invariant (I := fun net => RoutesKept net ∧ SumsOfPaths links net)
    ⟨.cold, .cold links⟩
  intro s action s' ⟨kept, sums⟩ allowed stepped
  exact ⟨kept.step (sums.keepsRoute kept noNull allowed) stepped,
    sums.step kept noNull allowed stepped⟩

/-! ### Settled states -/

section Settled

variable {links : Links nodes} {net : BeaconNet}

/-- A list that lacks a neighbour has room: with that neighbour it would have at most ten. -/
theorem SumsOfPaths.room (sums : SumsOfPaths links net) (few : links.FewNeighbours)
    (kept : RoutesKept net) {i j : LinkAddr} {x : Int} (link : links.rssi i j = some x)
    (absent : ∀ q ∈ (net.parents j).preferredParentList, q.id ≠ i) :
    (net.parents j).preferredParentList.length < preferredParentMem := by
  obtain ⟨heard, small, covers⟩ := few j
  have ids : (i :: (net.parents j).preferredParentList.map PreferredParent.id).Nodup := by
    refine List.nodup_cons.mpr ⟨?_, kept.nodup j⟩
    rw [List.mem_map]
    rintro ⟨q, member, own⟩
    exact absent q member own
  have inside : (i :: (net.parents j).preferredParentList.map PreferredParent.id).toFinset ⊆ heard := by
    intro k member
    rw [List.mem_toFinset, List.mem_cons, List.mem_map] at member
    rcases member with rfl | ⟨q, listed, rfl⟩
    · exact covers _ _ link
    · obtain ⟨_, y, link', -⟩ := sums.entry j q listed
      exact covers _ _ link'
  have count := Finset.card_le_card inside
  rw [List.toFinset_card_of_nodup ids, List.length_cons, List.length_map] at count
  exact Nat.lt_of_lt_of_le count small

/-- In a settled state every neighbour is listed with its current sum, and no eligible sum beats the
    node's own. -/
theorem Settled.listed (settled : Settled links net) (few : links.FewNeighbours)
    (kept : RoutesKept net) (sums : SumsOfPaths links net) {i j : LinkAddr} {x : Int}
    (link : links.rssi i j = some x) (notRoot : j.u8_0 ≠ 1) :
    ⟨i, net.announced i + x, x⟩ ∈ (net.parents j).preferredParentList ∧
      (Eligible (net.announced i + x) → net.announced i + x ≤ (net.parents j).myPathRssi) := by
  have range := links.range link
  have same := settled i j x link
  have outcome := registerParent_cases j (net.parents j) i (broadcastRssi i (net.parents i)) x
  rw [stored_sum (fun h => (kept.chosen i h).listed) range.1 (by omega)] at outcome
  change Registered _ _ _ _ _ (net.hear i j x) at outcome
  generalize net.hear i j x = state at same outcome
  cases outcome with
  | refused full =>
      obtain ⟨long, absent⟩ := storeEntry_none full
      exact absurd (sums.room few kept link absent) (Nat.not_lt.mpr long)
  | root _ isRoot => exact absurd isRoot notRoot
  | @nobody list stored _ nobody =>
      have lists : list = (net.parents j).preferredParentList := congrArg (·.preferredParentList) same
      subst lists
      have member := (storeEntry_mem (kept.nodup j) stored _).mpr (.inl rfl)
      exact ⟨member, fun eligible => absurd eligible (nobody _ member)⟩
  | @elected list w stored _ winner =>
      have lists : list = (net.parents j).preferredParentList := congrArg (·.preferredParentList) same
      have value : w.rssiP = (net.parents j).myPathRssi := congrArg (·.myPathRssi) same
      subst lists
      have member := (storeEntry_mem (kept.nodup j) stored _).mpr (.inl rfl)
      rw [← value]
      exact ⟨member, winner.greatest _ member⟩

/-- In a settled state announced sums dominate every path sum above -1000. -/
theorem Settled.dominates (settled : Settled links net) (few : links.FewNeighbours)
    (kept : RoutesKept net) (sums : SumsOfPaths links net) {i : LinkAddr} {s : Int}
    (path : PathSum links.rssi (IsRoot nodes) i s) (above : noPath < s) : s ≤ net.announced i := by
  refine path.le_of_relaxed noPath (fun link => ?_) (fun isRoot => ?_)
    (fun {u v x} link high => ?_) above
  · have := (links.range link).2
    omega
  · rw [BeaconNet.announced_root isRoot.2]
  · have negative := (links.range link).2
    have bound := (announced_range (fun h => (kept.chosen u h).listed)).2
    by_cases isRoot : v.u8_0 = 1
    · rw [BeaconNet.announced_root isRoot]
      omega
    · rw [BeaconNet.announced_of_not_root isRoot]
      exact (settled.listed few kept sums link isRoot).2 ⟨high, by omega⟩

/-- In a settled state a node's sum is its parent's announced sum plus the link between them. -/
theorem Settled.tight (settled : Settled links net) (few : links.FewNeighbours)
    (kept : RoutesKept net) (sums : SumsOfPaths links net) (noNull : linkaddrNull ∉ nodes)
    {i : LinkAddr} (notRoot : i.u8_0 ≠ 1) (eligible : Eligible (net.parents i).myPathRssi) :
    ∃ u x, u ∈ nodes ∧ bestParent? net i = some u ∧ links.rssi u i = some x ∧
      net.announced i = net.announced u + x := by
  rcases kept.chosen i notRoot with ⟨-, none⟩ | ⟨-, q, member, same, value⟩
  · rw [none] at eligible
    exact absurd eligible.1 (Int.lt_irrefl _)
  · obtain ⟨_, x, link, -⟩ := sums.entry i q member
    have current := (settled.listed few kept sums link notRoot).1
    have entry := (kept.nodup i).eq_of_id current member rfl
    have inNet := (links.ends link).1
    have notNull : (net.parents i).bestParentId ≠ linkaddrNull := by
      rw [← same]
      rintro null
      exact noNull (null ▸ inNet)
    refine ⟨q.id, x, inNet, ?_, link, ?_⟩
    · rw [bestParent?, if_neg notNull, same]
    · rw [BeaconNet.announced_of_not_root notRoot, ← value, ← entry]

/-- In a settled state best parents trace a node's sum back to node 1. -/
theorem Settled.parentSum (settled : Settled links net) (few : links.FewNeighbours)
    (kept : RoutesKept net) (sums : SumsOfPaths links net) (noNull : linkaddrNull ∉ nodes)
    {i : LinkAddr} (notRoot : i.u8_0 ≠ 1) (eligible : Eligible (net.parents i).myPathRssi) :
    ParentSum links.rssi (bestParent? net) (IsRoot nodes) i (net.parents i).myPathRssi := by
  have negative : ∀ {u v x}, links.rssi u v = some x → x < 0 := fun link => by
    have := (links.range link).2
    omega
  rw [← BeaconNet.announced_of_not_root notRoot]
  -- The nodes on the way are those of the network that have a route.
  refine parentSum_of_tight
    (P := fun v => v ∈ nodes ∧ (v.u8_0 ≠ 1 → Eligible (net.parents v).myPathRssi)) negative
    (fun {v} _ => (announced_range (fun h => (kept.chosen v h).listed)).2)
    (fun isRoot => BeaconNet.announced_root isRoot.2) ?_ ⟨?_, fun _ => eligible⟩
  · intro v ⟨member, hasPath⟩ noRoot
    have inner : v.u8_0 ≠ 1 := fun isRoot => noRoot ⟨member, isRoot⟩
    obtain ⟨u, x, inNet, up, link, sum⟩ := settled.tight few kept sums noNull inner (hasPath inner)
    refine ⟨u, x, ⟨inNet, fun notRoot => ?_⟩, up, link, sum⟩
    have low := (hasPath inner).1
    have below := negative link
    rw [← BeaconNet.announced_of_not_root inner, sum,
      BeaconNet.announced_of_not_root notRoot] at low
    exact ⟨by omega, (kept.chosen u notRoot).listed.range.2⟩
  · obtain ⟨_, _, _, _, link, _⟩ := settled.tight few kept sums noNull notRoot eligible
    exact (links.ends link).2.1

end Settled

/-- A nonempty set of path sums has a greatest element. -/
theorem exists_greatest_pathSum (links : Links nodes) {i : LinkAddr} {s : Int}
    (path : s ∈ pathSums links i) : ∃ M, IsGreatest (pathSums links i) M := by
  have bounded : ∀ t, t ∈ pathSums links i → t ≤ 0 := fun t member =>
    PathSum.nonpos (fun link => by have := (links.range link).2; omega) member
  obtain ⟨M, member, upper⟩ := Int.exists_greatest_of_bdd ⟨0, bounded⟩ ⟨s, path⟩
  exact ⟨M, member, upper⟩

/-- Over constant links a node's sum never falls. -/
theorem run_myPathRssi_mono {links : Links nodes} (noNull : linkaddrNull ∉ nodes)
    {trace : List (BeaconNet × BeaconAction)} {net : BeaconNet}
    (run : Run (BeaconNet.step nodes) (OverLinks links) BeaconNet.cold trace net) {i : LinkAddr}
    (notRoot : i.u8_0 ≠ 1) {earlier : BeaconNet} {action : BeaconAction}
    (member : (earlier, action) ∈ trace) :
    (earlier.parents i).myPathRssi ≤ (net.parents i).myPathRssi := by
  refine Run.rel_of_mem (R := fun s t => (s.parents i).myPathRssi ≤ (t.parents i).myPathRssi)
    (I := fun net => RoutesKept net ∧ SumsOfPaths links net) (fun _ _ _ => Int.le_trans)
    ⟨.cold, .cold links⟩ ?_ run member
  intro s action s' ⟨kept, sums⟩ allowed stepped
  have keeps := sums.keepsRoute kept noNull allowed
  exact ⟨⟨kept.step keeps stepped, sums.step kept noNull allowed stepped⟩,
    ((kept.node keeps stepped i).1 notRoot).2⟩

/-- With constant links and no expiry, sums never fall and never exceed the best path; and in a
    settled state every node with a path above -1000 has the best one and traces it back to node 1,
    while every other node but the root has none. -/
theorem bestPath_optimal (links : Links nodes) (few : links.FewNeighbours)
    (noNull : linkaddrNull ∉ nodes) {trace : List (BeaconNet × BeaconAction)} {net : BeaconNet}
    (run : Run (BeaconNet.step nodes) (OverLinks links) BeaconNet.cold trace net) {i : LinkAddr}
    (notRoot : i.u8_0 ≠ 1) :
    (∀ earlier action, (earlier, action) ∈ trace →
      (earlier.parents i).myPathRssi ≤ (net.parents i).myPathRssi) ∧
    ((net.parents i).bestParentId ≠ linkaddrNull →
      ∃ M, IsGreatest (pathSums links i) M ∧ (net.parents i).myPathRssi ≤ M) ∧
    (Settled links net →
      (∀ M, IsGreatest (pathSums links i) M → noPath < M →
        (net.parents i).myPathRssi = M ∧
          ParentSum links.rssi (bestParent? net) (IsRoot nodes) i M) ∧
      ((¬ ∃ M, IsGreatest (pathSums links i) M ∧ noPath < M) →
        (net.parents i).myPathRssi = noPath ∧ (net.parents i).bestParentId = linkaddrNull)) := by
  obtain ⟨kept, sums⟩ := run_sumsOfPaths noNull run
  have chosen := kept.chosen i notRoot
  refine ⟨fun _ _ member => run_myPathRssi_mono noNull run notRoot member, fun parent => ?_,
    fun settled => ⟨fun M best above => ?_, fun noBest => ?_⟩⟩
  · have path := sums.own i notRoot (chosen.listed.eligible parent)
    obtain ⟨M, best⟩ := exists_greatest_pathSum links path
    exact ⟨M, best, best.2 path⟩
  · have lower := settled.dominates few kept sums best.1 above
    rw [BeaconNet.announced_of_not_root notRoot] at lower
    have eligible : Eligible (net.parents i).myPathRssi :=
      ⟨Int.lt_of_lt_of_le above lower, chosen.listed.range.2⟩
    have value : (net.parents i).myPathRssi = M :=
      Int.le_antisymm (best.2 (sums.own i notRoot eligible)) lower
    exact ⟨value, value ▸ settled.parentSum few kept sums noNull notRoot eligible⟩
  · rcases chosen with ⟨none, value⟩ | ⟨eligible, -⟩
    · exact ⟨value, none⟩
    · have path := sums.own i notRoot eligible
      obtain ⟨M, best⟩ := exists_greatest_pathSum links path
      exact absurd ⟨M, best, Int.lt_of_lt_of_le eligible.1 (best.2 path)⟩ noBest

/-- Two nodes: node 2 hears node 1. -/
def oneLink : Links {⟨1, 0⟩, ⟨2, 0⟩} where
  rssi i j := if i = ⟨1, 0⟩ ∧ j = ⟨2, 0⟩ then some (-10) else none
  range h := by
    obtain ⟨-, same⟩ := Option.ite_none_right_eq_some.mp h
    cases same
    decide
  ends h := by
    obtain ⟨⟨rfl, rfl⟩, -⟩ := Option.ite_none_right_eq_some.mp h
    decide

theorem oneLink_few : oneLink.FewNeighbours := by
  refine fun j => ⟨{⟨1, 0⟩}, by decide, fun i x h => ?_⟩
  obtain ⟨⟨rfl, -⟩, -⟩ := Option.ite_none_right_eq_some.mp h
  exact Finset.mem_singleton_self _

/-- One beacon over the link makes the sum of the link the sum of node 2. -/
theorem bestPath_optimal_oneLink :
    ∃ trace net, Run (BeaconNet.step {⟨1, 0⟩, ⟨2, 0⟩}) (OverLinks oneLink) BeaconNet.cold trace net ∧
      (net.parents ⟨2, 0⟩).myPathRssi = -10 ∧
      ∃ M, IsGreatest (pathSums oneLink ⟨2, 0⟩) M ∧ (net.parents ⟨2, 0⟩).myPathRssi ≤ M := by
  have start : Run (BeaconNet.step {⟨1, 0⟩, ⟨2, 0⟩}) (OverLinks oneLink) BeaconNet.cold []
      BeaconNet.cold := .nil
  have run := start.snoc (l := .beacon ⟨1, 0⟩ [(⟨2, 0⟩, -10)]) (by simp [OverLinks, oneLink]) rfl
  exact ⟨_, _, run, by decide,
    (bestPath_optimal oneLink oneLink_few (by decide) run (by decide)).2.1 (by decide)⟩

end TreeRssi
