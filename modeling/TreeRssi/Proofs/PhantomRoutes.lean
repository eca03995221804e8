/-
Module: TreeRssi.Proofs.PhantomRoutes
Layer: Proofs
Purpose: Routes that lead nowhere. An election without a winner leaves the old parent and the old sum
  in place, where `keepalive_expired` would have cleared them; so after node 1 falls silent two
  survivors can climb through each other until no sum is eligible, and stay so for ever. Where the
  beacon of a node's own parent always leaves it a candidate, a stable network has no such route.
Imports: TreeRssi.Proofs.PathOptimality, TreeRssi.Proofs.Coherence
Trusted boundary: none
Main exports: HeardOverLinks, Stable, ReachesRoot, phantom_route, KeepsCandidate, keepsCandidate_iff,
  reachesRoot_of_keepsCandidate
Open obligations: none
-/
import TreeRssi.Proofs.PathOptimality
import TreeRssi.Proofs.Coherence

namespace TreeRssi

open LabelledRun BestPath

variable {nodes : Finset LinkAddr}

/-- Beacons are heard between neighbours, with any negative RSSI; entries may expire and nodes may fall
    silent. -/
def HeardOverLinks (links : Links nodes) (_ : BeaconNet) : BeaconAction → Prop
  | .beacon sender heard => ∀ e ∈ heard, (links.rssi sender e.1).isSome ∧ e.2 < 0
  | .expire _ _ => True
  | .silence _ => True

/-- The current beacon of a live node changes no parent and no sum at any live neighbour, and no entry
    of a silent node remains. -/
structure Stable (links : Links nodes) (net : BeaconNet) : Prop where
  unchanged : ∀ i j x, net.Live nodes i → net.Live nodes j → links.rssi i j = some x →
    (net.hear i j x).bestParentId = (net.parents j).bestParentId ∧
      (net.hear i j x).myPathRssi = (net.parents j).myPathRssi
  noSilent : ∀ j, net.Live nodes j → ∀ q ∈ (net.parents j).preferredParentList, q.id ∉ net.silent

/-- Following best parents from `i` through live nodes ends at node 1. -/
def ReachesRoot (nodes : Finset LinkAddr) (net : BeaconNet) (i : LinkAddr) : Prop :=
  ∃ root, IsRoot nodes root ∧
    Relation.ReflTransGen (fun a b => net.ParentOf a b ∧ net.Live nodes b) i root

/-- In a stable network every live node with a parent reaches node 1. -/
def NoPhantomRoutes (links : Links nodes) (net : BeaconNet) : Prop :=
  Stable links net → ∀ i, net.Live nodes i → (net.parents i).bestParentId ≠ linkaddrNull →
    ReachesRoot nodes net i

/-! ### The phantom route -/

/-- Node 1 is heard by 2, and 2 and 3 hear each other, all as badly as an RSSI can be. -/
def weakLine : Links {⟨1, 0⟩, ⟨2, 0⟩, ⟨3, 0⟩} where
  rssi i j :=
    if (i = ⟨1, 0⟩ ∧ j = ⟨2, 0⟩) ∨ (i = ⟨2, 0⟩ ∧ j = ⟨3, 0⟩) ∨ (i = ⟨3, 0⟩ ∧ j = ⟨2, 0⟩) then
      some (-128)
    else none
  range h := by
    obtain ⟨-, same⟩ := Option.ite_none_right_eq_some.mp h
    cases same
    decide
  ends h := by
    obtain ⟨⟨rfl, rfl⟩ | ⟨rfl, rfl⟩ | ⟨rfl, rfl⟩, -⟩ := Option.ite_none_right_eq_some.mp h
    all_goals decide

/-- A beacon of node 2 heard by node 3, and one of node 3 heard by node 2. -/
def exchange : List BeaconAction :=
  [.beacon ⟨2, 0⟩ [(⟨3, 0⟩, -128)], .beacon ⟨3, 0⟩ [(⟨2, 0⟩, -128)]]

/-- Node 1 falls silent once 2 and 3 have routes; its entry expires; 2 and 3 keep exchanging beacons. -/
def countToInfinity : List BeaconAction :=
  [.beacon ⟨1, 0⟩ [(⟨2, 0⟩, -128)]] ++ exchange ++ [.silence ⟨1, 0⟩, .expire ⟨2, 0⟩ ⟨1, 0⟩,
    .beacon ⟨3, 0⟩ [(⟨2, 0⟩, -128)]] ++ exchange ++ exchange ++ exchange

/-- Where `countToInfinity` ends: each of 2 and 3 has the other as its parent, and the entry that node 3
    stores for node 2 is below the floor. -/
theorem countToInfinity_ends :
    (execute (BeaconNet.step {⟨1, 0⟩, ⟨2, 0⟩, ⟨3, 0⟩}) BeaconNet.cold countToInfinity).map
      (fun net => (net.parents ⟨2, 0⟩, net.parents ⟨3, 0⟩, net.silent)) =
    some (⟨[⟨⟨3, 0⟩, -896, -128⟩], ⟨3, 0⟩, -896⟩, ⟨[⟨⟨2, 0⟩, -1024, -128⟩], ⟨2, 0⟩, -768⟩,
      [⟨1, 0⟩]) := by
  decide

/-- A stable network can keep a route that leads nowhere. -/
theorem phantom_route :
    ¬ ∀ (nodes : Finset LinkAddr) (links : Links nodes), DistinctIds nodes → linkaddrNull ∉ nodes →
      ∀ trace net, Run (BeaconNet.step nodes) (HeardOverLinks links) BeaconNet.cold trace net →
        NoPhantomRoutes links net := by
  intro noPhantoms
  obtain ⟨net, executed, ends⟩ := Option.map_eq_some_iff.mp countToInfinity_ends
  obtain ⟨two, three, silent⟩ : net.parents ⟨2, 0⟩ = ⟨[⟨⟨3, 0⟩, -896, -128⟩], ⟨3, 0⟩, -896⟩ ∧
      net.parents ⟨3, 0⟩ = ⟨[⟨⟨2, 0⟩, -1024, -128⟩], ⟨2, 0⟩, -768⟩ ∧ net.silent = [⟨1, 0⟩] := by
    simpa only [Prod.mk.injEq] using ends
  have run := Run.of_execute (HeardOverLinks weakLine)
    (by simp [countToInfinity, exchange, HeardOverLinks, weakLine]) executed
  have stable : Stable weakLine net := by
    refine ⟨fun i j x liveI _ link => ?_, fun j live q listed => ?_⟩
    · obtain ⟨⟨rfl, rfl⟩ | ⟨rfl, rfl⟩ | ⟨rfl, rfl⟩, same⟩ := Option.ite_none_right_eq_some.mp link
      all_goals cases same
      · exact absurd liveI.2 (by simp [silent])
      · rw [BeaconNet.hear, two, three]
        decide
      · rw [BeaconNet.hear, two, three]
        decide
    · have member : j = ⟨1, 0⟩ ∨ j = ⟨2, 0⟩ ∨ j = ⟨3, 0⟩ := by simpa using live.1
      rcases member with rfl | rfl | rfl
      · exact absurd live.2 (by simp [silent])
      · rw [two] at listed
        simp_all
      · rw [three] at listed
        simp_all
  have live : net.Live {⟨1, 0⟩, ⟨2, 0⟩, ⟨3, 0⟩} ⟨2, 0⟩ := ⟨by decide, by simp [silent]⟩
  obtain ⟨root, isRoot, path⟩ := noPhantoms _ weakLine (by decide) (by decide) _ net run stable
    ⟨2, 0⟩ live (by rw [two]; decide)
  -- The path never leaves nodes 2 and 3.
  have trapped : root = ⟨2, 0⟩ ∨ root = ⟨3, 0⟩ := by
    clear isRoot
    induction path with
    | refl => exact .inl rfl
    | tail _ step ih =>
        rcases ih with rfl | rfl
        · exact .inr (step.1.1.symm.trans (by rw [two]))
        · exact .inl (step.1.1.symm.trans (by rw [three]))
  have first := isRoot.2
  rcases trapped with rfl | rfl
  · exact absurd first (by decide)
  · exact absurd first (by decide)

/-! ### Where every election keeps a candidate -/

/-- Every live node with a live parent has a sum to elect when it hears the parent: the one that the parent
    announces with the link added, or that of another listed neighbour, is eligible. -/
def KeepsCandidate (links : Links nodes) (net : BeaconNet) : Prop :=
  ∀ i j x, net.Live nodes i → net.Live nodes j → links.rssi i j = some x → net.ParentOf j i →
    Eligible (net.announced i + x) ∨
      ∃ q ∈ (net.parents j).preferredParentList, q.id ≠ i ∧ Eligible q.rssiP

section
variable {links : Links nodes} {trace : List (BeaconNet × BeaconAction)} {net : BeaconNet}

/-- A node only lists neighbours. -/
theorem run_listed_link
    (run : Run (BeaconNet.step nodes) (HeardOverLinks links) BeaconNet.cold trace net)
    (i : LinkAddr) : ∀ q ∈ (net.parents i).preferredParentList, (links.rssi q.id i).isSome :=
  run_listed_heard (P := fun sender i => (links.rssi sender i).isSome)
    (fun _ _ _ allowed _ e member => (allowed e member).1) run i

/-- The outcomes of hearing a neighbour, with the sum that is stored for it. -/
theorem hear_registered
    (run : Run (BeaconNet.step nodes) (HeardOverLinks links) BeaconNet.cold trace net) {i u : LinkAddr}
    {x : Int} (link : links.rssi u i = some x) :
    Registered i (net.parents i) u (net.announced u + x) x (net.hear u i x) := by
  have range := links.range link
  have outcome := registerParent_cases i (net.parents i) u (broadcastRssi u (net.parents u)) x
  rwa [stored_sum (fun h => run_listed run h) range.1 (by omega)] at outcome

/-- The condition is exactly that no election on a beacon of the own parent ends without a winner. -/
theorem keepsCandidate_iff
    (run : Run (BeaconNet.step nodes) (HeardOverLinks links) BeaconNet.cold trace net) :
    KeepsCandidate links net ↔
      ∀ i j x, net.Live nodes i → net.Live nodes j → links.rssi i j = some x → net.ParentOf j i →
        HasCandidate (net.hear i j x).preferredParentList := by
  refine forall₃_congr fun i j x => forall₄_congr fun _ _ link parent => ?_
  have notRoot : j.u8_0 ≠ 1 := fun isRoot => parent.2 (parent.1 ▸ run_root run isRoot)
  have nodup := run_nodup run j
  have outcome := hear_registered run link
  generalize net.hear i j x = state at outcome
  cases outcome with
  | refused full =>
      rcases run_listed run notRoot with ⟨none, -⟩ | ⟨-, q, listed, same⟩
      · exact absurd (parent.1 ▸ none) parent.2
      · exact absurd (same.trans parent.1) ((storeEntry_none full).2 q listed)
  | root _ isRoot => exact absurd isRoot notRoot
  | nobody stored | elected stored => exact (hasCandidate_stored nodup stored).symm

/-- A live node with a parent announces its parent's sum plus the link, when the parent's beacon
    changes nothing and leaves a candidate. -/
theorem announced_of_parent
    (run : Run (BeaconNet.step nodes) (HeardOverLinks links) BeaconNet.cold trace net)
    (keeps : KeepsCandidate links net) (stable : Stable links net) {i u : LinkAddr} {x : Int}
    (liveI : net.Live nodes i) (liveU : net.Live nodes u) (notRoot : i.u8_0 ≠ 1)
    (link : links.rssi u i = some x) (parent : net.ParentOf i u)
    (listed : ∃ q ∈ (net.parents i).preferredParentList, q.id = u) :
    net.announced i = net.announced u + x := by
  have nodup := run_nodup run i
  obtain ⟨bestSame, sumSame⟩ := stable.unchanged u i x liveU liveI link
  obtain ⟨q, candidate, eligible⟩ := (keepsCandidate_iff run).mp keeps u i x liveU liveI link parent
  have outcome := hear_registered run link
  generalize net.hear u i x = state at bestSame sumSame candidate outcome
  rw [BeaconNet.announced_of_not_root notRoot, ← sumSame]
  cases outcome with
  | refused full =>
      obtain ⟨own, member, same⟩ := listed
      exact absurd same ((storeEntry_none full).2 own member)
  | root _ isRoot => exact absurd isRoot notRoot
  | nobody _ _ nobody => exact absurd eligible (nobody q candidate)
  | @elected list w stored _ winner =>
      have own : w.id = u := bestSame.trans parent.1
      rcases (storeEntry_mem nodup stored w).mp winner.listed with entry | ⟨-, other⟩
      · change w.rssiP = _
        rw [entry]
      · exact absurd own other

end

/-- Where the beacon of a node's own parent always leaves it a candidate, no route leads nowhere. -/
theorem reachesRoot_of_keepsCandidate (links : Links nodes) (noNull : linkaddrNull ∉ nodes)
    {trace : List (BeaconNet × BeaconAction)} {net : BeaconNet}
    (run : Run (BeaconNet.step nodes) (HeardOverLinks links) BeaconNet.cold trace net)
    (keeps : KeepsCandidate links net) : NoPhantomRoutes links net := by
  intro stable i live hasParent
  -- A live node with a sum has a live parent that announces more.
  have next : ∀ {v}, (net.Live nodes v ∧ (v.u8_0 ≠ 1 → Eligible (net.parents v).myPathRssi)) →
      ¬ (v.u8_0 = 1 ∧ net.Live nodes v) →
      ∃ u, (net.Live nodes u ∧ (u.u8_0 ≠ 1 → Eligible (net.parents u).myPathRssi)) ∧
        net.ParentOf v u ∧ net.announced v < net.announced u := by
    intro v ⟨liveV, hasSum⟩ notRoot
    have inner : v.u8_0 ≠ 1 := fun isRoot => notRoot ⟨isRoot, liveV⟩
    have eligible := hasSum inner
    rcases run_listed run inner with ⟨-, none⟩ | ⟨-, q, member, best⟩
    · rw [none] at eligible
      exact absurd eligible.1 (Int.lt_irrefl _)
    · obtain ⟨x, link⟩ := Option.isSome_iff_exists.mp (run_listed_link run v q member)
      have liveQ : net.Live nodes q.id := ⟨(links.ends link).1, stable.noSilent v liveV q member⟩
      have parent : net.ParentOf v q.id := by
        refine ⟨best.symm, ?_⟩
        rintro null
        exact noNull (null ▸ liveQ.1)
      have sum := announced_of_parent run keeps stable liveV liveQ inner link parent
        ⟨q, member, rfl⟩
      have negative := (links.range link).2
      refine ⟨q.id, ⟨liveQ, fun notRootQ => ?_⟩, parent, by omega⟩
      rw [BeaconNet.announced_of_not_root inner, BeaconNet.announced_of_not_root notRootQ] at sum
      have low := eligible.1
      exact ⟨by omega, (run_listed run notRootQ).range.2⟩
  obtain ⟨root, ⟨isRoot, rootLive⟩, path⟩ := reaches_root_of_ascending
    (fun {_} _ => (announced_range (run_listed run)).2) next
    ⟨live, fun notRoot => (run_listed run notRoot).eligible hasParent⟩
  exact ⟨root, ⟨rootLive.1, isRoot⟩,
    Relation.ReflTransGen.mono (fun _ _ step => ⟨step.1, step.2.1⟩) _ _ path⟩

/-- Node 2 climbs to node 1 over one link, and its route is real. -/
theorem reachesRoot_oneLink :
    ∃ trace net,
      Run (BeaconNet.step {⟨1, 0⟩, ⟨2, 0⟩}) (HeardOverLinks oneLink) BeaconNet.cold trace net ∧
      net.ParentOf ⟨2, 0⟩ ⟨1, 0⟩ ∧ NoPhantomRoutes oneLink net := by
  have start : Run (BeaconNet.step {⟨1, 0⟩, ⟨2, 0⟩}) (HeardOverLinks oneLink) BeaconNet.cold []
      BeaconNet.cold := .nil
  have run := start.snoc (l := .beacon ⟨1, 0⟩ [(⟨2, 0⟩, -10)]) (by simp [HeardOverLinks, oneLink]) rfl
  refine ⟨_, _, run, by decide, reachesRoot_of_keepsCandidate oneLink (by decide) run ?_⟩
  intro i j x _ _ link _
  obtain ⟨⟨rfl, rfl⟩, same⟩ := Option.ite_none_right_eq_some.mp link
  cases same
  exact .inl (by decide)

end TreeRssi
