/-
Module: TreeRssi.Proofs.ForwardingLoops
Layer: Proofs
Purpose: Loops of data packets in a frozen network. A table keeps the edge of a child that has moved to
  another parent, so a node may send a packet down to a child that knows nothing of the destination and
  sends it back up. There is no loop where every control message of the history went to the node that is
  the sender's best parent in the frozen state: then what a node knows about a destination, the child on
  the way to it knows as well.
Imports: TreeRssi.Core.Routing, TreeRssi.Lib.ParentTree, TreeRssi.Proofs.SearchTermination
Trusted boundary: none
Main exports: ForwardsTo, TreeRooted, forwarding_loop, TreeRooted.tree, Honest.knowledge, Honest.hop,
  forwarding_loopFree
Open obligations: none
-/
import TreeRssi.Core.Routing
import TreeRssi.Lib.ParentTree
import TreeRssi.Proofs.SearchTermination

namespace TreeRssi

open CText LabelledRun DepthFirst

/-- In the frozen state the node `i` forwards a packet for `dstId` to the node `j`. -/
def ForwardsTo (nodes : Finset LinkAddr) (net : Net) (dstId : UInt8) (i j : LinkAddr) : Prop :=
  i ∈ nodes ∧ j ∈ nodes ∧ ∃ fuel next,
    routeHop fuel (net.table i) (net.best i) i.u8_0 dstId = some (.forward next) ∧ j.u8_0 = next.u8_0

/-- The best parents form a tree on the nodes, rooted at node 1. -/
structure TreeRooted (nodes : Finset LinkAddr) (net : Net) : Prop where
  root : ∀ i ∈ nodes, i.u8_0 = 1 → net.best i = linkaddrNull
  climbs : ∀ i ∈ nodes, ∃ root ∈ nodes, root.u8_0 = 1 ∧
    Relation.ReflTransGen (fun c p => c ∈ nodes ∧ p ∈ nodes ∧ net.beacons.ParentOf c p) i root

/-- The root has no parent, and every other node climbs to a node of smaller rank. -/
structure RankedParents (nodes : Finset LinkAddr) (root : LinkAddr) (rank : LinkAddr → Nat) (net : Net) :
    Prop where
  top : net.best root = linkaddrNull
  climbs : ∀ i ∈ nodes, i ≠ root →
    net.best i ∈ nodes ∧ net.best i ≠ linkaddrNull ∧ rank (net.best i) < rank i

instance (nodes : Finset LinkAddr) (root : LinkAddr) (rank : LinkAddr → Nat) (net : Net) :
    Decidable (RankedParents nodes root rank net) :=
  decidable_of_iff (net.best root = linkaddrNull ∧ ∀ i ∈ nodes, i ≠ root →
      net.best i ∈ nodes ∧ net.best i ≠ linkaddrNull ∧ rank (net.best i) < rank i)
    ⟨fun both => ⟨both.1, both.2⟩, fun ranked => ⟨ranked.top, ranked.climbs⟩⟩

/-- Parents of smaller rank form a tree. -/
theorem RankedParents.treeRooted {nodes : Finset LinkAddr} {root : LinkAddr} {rank : LinkAddr → Nat}
    {net : Net} (ranked : RankedParents nodes root rank net) (distinct : DistinctIds nodes)
    (member : root ∈ nodes) (isRoot : root.u8_0 = 1) : TreeRooted nodes net := by
  refine ⟨fun i iMem one => ?_, fun i iMem => ⟨root, member, isRoot, ?_⟩⟩
  · cases distinct i iMem root member (one.trans isRoot.symm)
    exact ranked.top
  · induction least : rank i using Nat.strong_induction_on generalizing i with
    | _ n ih =>
        by_cases here : i = root
        · rw [here]
        · obtain ⟨parentMem, proper, smaller⟩ := ranked.climbs i iMem here
          exact .head ⟨iMem, parentMem, rfl, proper⟩ (ih _ (least ▸ smaller) _ parentMem rfl)

/-! ### A child that has moved -/

/-- Node 4 reports to node 2 and that report goes on to node 1. Then node 4 moves to node 3, node 5
    climbs through node 4, and the reports go on to node 1 through node 3. -/
def movedChild : List NetAction :=
  [.radio (.beacon ⟨1, 0⟩ [(⟨2, 0⟩, -10), (⟨3, 0⟩, -10)]), .radio (.beacon ⟨2, 0⟩ [(⟨4, 0⟩, -20)]),
    .sendControl ⟨4, 0⟩,
    .receive ⟨⟨4, 0⟩, ⟨2, 0⟩, [uControl, ch '4', ch ':', ch ';', 0]⟩ true, .deliver ⟨2, 0⟩,
    .sendControl ⟨2, 0⟩,
    .receive ⟨⟨2, 0⟩, ⟨1, 0⟩, [uControl, ch '2', ch ':', ch '4', ch ';', 0]⟩ true, .deliver ⟨1, 0⟩,
    .radio (.beacon ⟨3, 0⟩ [(⟨4, 0⟩, -5)]), .radio (.beacon ⟨4, 0⟩ [(⟨5, 0⟩, -5)]),
    .sendControl ⟨5, 0⟩,
    .receive ⟨⟨5, 0⟩, ⟨4, 0⟩, [uControl, ch '5', ch ':', ch ';', 0]⟩ true, .deliver ⟨4, 0⟩,
    .sendControl ⟨4, 0⟩,
    .receive ⟨⟨4, 0⟩, ⟨3, 0⟩, [uControl, ch '4', ch ':', ch '5', ch ';', 0]⟩ true, .deliver ⟨3, 0⟩,
    .sendControl ⟨3, 0⟩,
    .receive ⟨⟨3, 0⟩, ⟨1, 0⟩,
      [uControl, ch '3', ch ':', ch '4', ch ';', ch '4', ch ':', ch '5', ch ';', 0]⟩ true,
    .deliver ⟨1, 0⟩]

/-- What node 1 does with a packet for node 5, and what node 2 does with it. -/
def movedChildView (net : Net) : List LinkAddr × Option Decision × Option Decision :=
  ([net.best ⟨1, 0⟩, net.best ⟨2, 0⟩, net.best ⟨3, 0⟩, net.best ⟨4, 0⟩, net.best ⟨5, 0⟩],
    routeHop 4 (net.table ⟨1, 0⟩) (net.best ⟨1, 0⟩) 1 5,
    routeHop 4 (net.table ⟨2, 0⟩) (net.best ⟨2, 0⟩) 2 5)

/-- A packet can go back and forth between two nodes although the best parents form a tree. -/
theorem forwarding_loop :
    ¬ ∀ (nodes : Finset LinkAddr) (packetbufSize : Nat), DistinctIds nodes → (∀ i ∈ nodes, i.u8_0 ≠ 0) →
      128 ≤ packetbufSize → ∀ trace net,
        Run (Net.step nodes packetbufSize) anyStep (Net.boot BeaconNet.cold) trace net →
        TreeRooted nodes net → ∀ dstId i, ¬ Relation.TransGen (ForwardsTo nodes net dstId) i i := by
  intro loopFree
  let nodes : Finset LinkAddr := {⟨1, 0⟩, ⟨2, 0⟩, ⟨3, 0⟩, ⟨4, 0⟩, ⟨5, 0⟩}
  have moved : ((execute (Net.step nodes 128) (Net.boot BeaconNet.cold) movedChild).map movedChildView) =
      some ([linkaddrNull, ⟨1, 0⟩, ⟨1, 0⟩, ⟨3, 0⟩, ⟨4, 0⟩], some (.forward ⟨2, 0⟩),
        some (.forward ⟨1, 0⟩)) := by
    decide +kernel
  obtain ⟨net, executed, view⟩ := Option.map_eq_some_iff.mp moved
  have run := Run.of_execute anyStep (fun _ _ _ => trivial) executed
  simp only [movedChildView, Prod.mk.injEq, List.cons.injEq, and_true] at view
  obtain ⟨⟨best1, best2, best3, best4, best5⟩, down, up⟩ := view
  have ranked : RankedParents nodes ⟨1, 0⟩ (fun i => i.u8_0.toNat) net := by
    refine ⟨best1, fun i member away => ?_⟩
    have which : i = ⟨2, 0⟩ ∨ i = ⟨3, 0⟩ ∨ i = ⟨4, 0⟩ ∨ i = ⟨5, 0⟩ := by
      simpa [nodes, away] using member
    rcases which with rfl | rfl | rfl | rfl
    · rw [best2]
      decide
    · rw [best3]
      decide
    · rw [best4]
      decide
    · rw [best5]
      decide
  have tree := ranked.treeRooted (by decide) (by decide) rfl
  have first : ForwardsTo nodes net 5 ⟨1, 0⟩ ⟨2, 0⟩ := ⟨by decide, by decide, 4, _, down, rfl⟩
  have second : ForwardsTo nodes net 5 ⟨2, 0⟩ ⟨1, 0⟩ := ⟨by decide, by decide, 4, _, up, rfl⟩
  exact loopFree nodes 128 (by decide) (by decide) (by decide) _ net run tree 5 ⟨1, 0⟩
    (.tail (.single first) second)

/-! ### The tree of a frozen state -/

variable {nodes : Finset LinkAddr} {net : Net}

/-- The parent of a node in the frozen state. -/
def frozenParent (nodes : Finset LinkAddr) (net : Net) (c : LinkAddr) : Option LinkAddr :=
  if c ∈ nodes ∧ net.best c ∈ nodes ∧ net.best c ≠ linkaddrNull then some (net.best c) else none

theorem frozenParent_eq {c p : LinkAddr} : frozenParent nodes net c = some p ↔
    c ∈ nodes ∧ p ∈ nodes ∧ net.beacons.ParentOf c p := by
  rw [frozenParent, Option.ite_none_right_eq_some]
  constructor
  · rintro ⟨⟨child, parent, proper⟩, same⟩
    cases same
    exact ⟨child, parent, rfl, proper⟩
  · rintro ⟨child, parent, best, proper⟩
    cases best
    exact ⟨⟨child, parent, proper⟩, rfl⟩

/-- The frozen parents of a tree, with node 1 as the root. -/
def TreeRooted.tree (rooted : TreeRooted nodes net) (distinct : DistinctIds nodes) {root : LinkAddr}
    (member : root ∈ nodes) (isRoot : root.u8_0 = 1) : ParentTree LinkAddr where
  verts := {i | i ∈ nodes}
  root := root
  parent := frozenParent nodes net
  root_mem := member
  parent_root := by
    rw [frozenParent, if_neg]
    exact fun proper => proper.2.2 (rooted.root root member isRoot)
  parent_mem up := ⟨(frozenParent_eq.mp up).1, (frozenParent_eq.mp up).2.1⟩
  reaches_root := by
    intro v vertex
    obtain ⟨root', member', isRoot', climb⟩ := rooted.climbs v vertex
    cases distinct root member root' member' (isRoot.trans isRoot'.symm)
    exact Relation.ReflTransGen.mono (fun _ _ up => frozenParent_eq.mpr up) _ _ climb

/-! ### Knowledge -/

section
variable {link : LinkAddr → LinkAddr → Prop} {T : ParentTree LinkAddr}

/-- What a parent knows about the subtree of its child `c` it knows from `c`: the edges from `c`
    downwards in the table of the parent are in the table of `c`. -/
theorem Honest.path_inherited (honest : Honest nodes link net) (distinct : DistinctIds nodes)
    (follows : ∀ {c p}, Linked nodes link c p → T.Up c p) {v c : LinkAddr}
    (linked : Linked nodes link c v) {id : UInt8} (path : Reaches (childrenOf (net.table v)) c.u8_0 id) :
    Reaches (childrenOf (net.table c)) c.u8_0 id ∧ ∃ w ∈ nodes, w.u8_0 = id ∧ T.Below w c := by
  induction path with
  | refl => exact ⟨.refl, c, linked.child_mem, rfl, .refl⟩
  | @tail p q _ edge ih =>
      obtain ⟨path, w, wMem, rfl, below⟩ := ih
      have listed := hasEdge_of_edge edge
      obtain ⟨parent, child, same, rfl, ⟨linked', -, -⟩⟩ := honest.edges v _ _ listed
      cases distinct parent linked'.parent_mem w wMem same
      refine ⟨path.tail ?_, child, linked'.child_mem, rfl, .head (follows linked') below⟩
      -- The edge came to `v` from the child above it, which can only be `c`.
      rcases honest.learned v _ _ listed with own | ⟨sender, toV, known⟩
      · cases distinct w wMem v linked.parent_mem own
        exact absurd below (follows linked).not_below
      · obtain ⟨parent', child', same', -, ⟨linked'', above, -⟩⟩ := honest.edges sender _ _ known
        cases distinct parent' linked''.parent_mem w wMem same'
        have aboveSender : T.Below w sender :=
          Relation.ReflTransGen.mono (fun _ _ linked => follows linked) _ _ above
        cases ParentTree.Below.child_unique (follows toV) (follows linked) aboveSender below
        exact edge_of_hasEdge (honest.ok c).ids known

/-- A child through which a node knows the destination is the child on the way to it, and knows it
    too. -/
theorem Honest.child_on_path (honest : Honest nodes link net) (distinct : DistinctIds nodes)
    (follows : ∀ {c p}, Linked nodes link c p → T.Up c p) {v d : LinkAddr} (vMem : v ∈ nodes)
    (dMem : d ∈ nodes) {id : UInt8} (edge : Edge (childrenOf (net.table v)) v.u8_0 id)
    (path : Reaches (childrenOf (net.table v)) id d.u8_0) :
    ∃ c, c.u8_0 = id ∧ Linked nodes link c v ∧ T.Below d c ∧
      Reaches (childrenOf (net.table c)) c.u8_0 d.u8_0 := by
  obtain ⟨parent, child, same, rfl, ⟨linked, -, -⟩⟩ := honest.edges v _ _ (hasEdge_of_edge edge)
  cases distinct parent linked.parent_mem v vMem same
  obtain ⟨path, w, wMem, same, below⟩ := honest.path_inherited distinct follows linked path
  cases distinct w wMem d dMem same
  exact ⟨child, rfl, linked, below, path⟩

/-- The nodes whose tables lead to `d`. -/
def Honest.knowledge (honest : Honest nodes link net) (distinct : DistinctIds nodes)
    (follows : ∀ {c p}, Linked nodes link c p → T.Up c p) {d : LinkAddr} (dMem : d ∈ nodes) :
    ParentTree.Knowledge T d where
  knows v := v ∈ nodes ∧ v ≠ d ∧ Relation.TransGen (Edge (childrenOf (net.table v))) v.u8_0 d.u8_0
  below := by
    rintro v ⟨vMem, other, path⟩
    obtain ⟨id, edge, rest⟩ := Relation.TransGen.head'_iff.mp path
    obtain ⟨c, -, linked, below, -⟩ := honest.child_on_path distinct follows vMem dMem edge rest
    exact ⟨below.tail (follows linked), other⟩
  inherited := by
    rintro v c ⟨vMem, -, path⟩ up below other
    obtain ⟨id, edge, rest⟩ := Relation.TransGen.head'_iff.mp path
    obtain ⟨c', rfl, linked, below', path'⟩ := honest.child_on_path distinct follows vMem dMem edge rest
    cases ParentTree.Below.child_unique (follows linked) up below' below
    refine ⟨linked.child_mem, other, ?_⟩
    rcases Relation.reflTransGen_iff_eq_or_transGen.mp path' with same | proper
    · exact absurd (distinct d dMem c linked.child_mem same).symm other
    · exact proper

end

/-! ### No loop -/

/-- The children that a table of the network lists are nodes of the network. -/
theorem Honest.child_mem {link : LinkAddr → LinkAddr → Prop} (honest : Honest nodes link net)
    {i : LinkAddr} {p c : UInt8} (edge : Edge (childrenOf (net.table i)) p c) :
    ∃ child ∈ nodes, child.u8_0 = c := by
  obtain ⟨_, child, -, rfl, ⟨linked, -, -⟩⟩ := honest.edges i _ _ (hasEdge_of_edge edge)
  exact ⟨child, linked.child_mem, rfl⟩

/-- What a hop decision says about the search. -/
theorem routeHop_forward {fuel : Nat} {tree : RoutingTree} {best next : LinkAddr} {myId dstId : UInt8}
    (forward : routeHop fuel tree best myId dstId = some (.forward next)) :
    dstId ≠ myId ∧
      ((searchForwarder fuel tree myId dstId = some 0 ∧ best ≠ linkaddrNull ∧ next = best) ∨
        ∃ forwarder, forwarder ≠ 0 ∧ searchForwarder fuel tree myId dstId = some forwarder ∧
          next = ⟨forwarder, 0⟩) := by
  rw [routeHop] at forward
  split at forward
  · cases forward
  next elsewhere =>
    obtain ⟨forwarder, found, decision⟩ := Option.map_eq_some_iff.mp forward
    refine ⟨elsewhere, ?_⟩
    split at decision
    next zero =>
      subst zero
      split at decision
      · cases decision
      next hasParent =>
        cases decision
        exact .inl ⟨found, hasParent, rfl⟩
    next proper =>
      cases decision
      exact .inr ⟨forwarder, proper, found, rfl⟩

/-- A node of the tree that forwards a packet to its best parent forwards it up the tree. -/
theorem TreeRooted.up (rooted : TreeRooted nodes net) (distinct : DistinctIds nodes) {a b : LinkAddr}
    (aMem : a ∈ nodes) (bMem : b ∈ nodes) (hasParent : net.best a ≠ linkaddrNull)
    (same : b.u8_0 = (net.best a).u8_0) : frozenParent nodes net a = some b := by
  obtain ⟨root, rootMem, isRoot, climb⟩ := rooted.climbs a aMem
  rcases climb.cases_head with rfl | ⟨p, ⟨child, parent, best, proper⟩, -⟩
  · exact absurd (rooted.root a rootMem isRoot) hasParent
  · cases distinct b bMem p parent (same.trans (congrArg LinkAddr.u8_0 best))
    exact frozenParent_eq.mpr ⟨child, parent, best, proper⟩

section
variable {link : LinkAddr → LinkAddr → Prop} {T : ParentTree LinkAddr}

/-- No table lists the null id. -/
theorem Honest.noNull (honest : Honest nodes link net) (nonzero : ∀ i ∈ nodes, i.u8_0 ≠ 0)
    (i : LinkAddr) (p : UInt8) : 0 ∉ childrenOf (net.table i) p := by
  intro listed
  obtain ⟨child, member, null⟩ := honest.child_mem (i := i) (p := p) listed
  exact nonzero child member null

/-- Forwarding a packet for a node of the network is a hop of routing with what the tables know. -/
theorem Honest.hop (honest : Honest nodes link net) (distinct : DistinctIds nodes)
    (nonzero : ∀ i ∈ nodes, i.u8_0 ≠ 0) (rooted : TreeRooted nodes net)
    (follows : ∀ {c p}, Linked nodes link c p → T.Up c p)
    (parents : ∀ {c p}, frozenParent nodes net c = some p → T.Up c p) {d a b : LinkAddr}
    (dMem : d ∈ nodes) (forwards : ForwardsTo nodes net d.u8_0 a b) :
    T.Hop (honest.knowledge distinct follows dMem) a b := by
  obtain ⟨aMem, bMem, fuel, next, forward, same⟩ := forwards
  obtain ⟨elsewhere, ⟨found, hasParent, rfl⟩ | ⟨forwarder, proper, found, rfl⟩⟩ :=
    routeHop_forward forward
  · refine .up ?_ (fun here => elsewhere (here ▸ rfl))
      (parents (rooted.up distinct aMem bMem hasParent same))
    rintro ⟨-, -, path⟩
    obtain ⟨child, edge, rest⟩ := Relation.TransGen.head'_iff.mp path
    exact searchForwarder_none found edge (honest.noNull nonzero a _) rest
  · obtain ⟨edge, path⟩ := searchForwarder_child proper found
    obtain ⟨c, rfl, linked, below, -⟩ := honest.child_on_path distinct follows aMem dMem edge path
    cases distinct b bMem c linked.child_mem same
    exact .down ⟨aMem, fun here => elsewhere (here ▸ rfl), .head' edge path⟩ (follows linked) below

/-- A packet for nobody only climbs. -/
theorem Honest.climbs (honest : Honest nodes link net) (distinct : DistinctIds nodes)
    (rooted : TreeRooted nodes net) (parents : ∀ {c p}, frozenParent nodes net c = some p → T.Up c p)
    {dstId : UInt8} (outside : ¬ ∃ d ∈ nodes, d.u8_0 = dstId) {a b : LinkAddr}
    (forwards : ForwardsTo nodes net dstId a b) : T.Up a b := by
  obtain ⟨aMem, bMem, fuel, next, forward, same⟩ := forwards
  obtain ⟨-, ⟨-, hasParent, rfl⟩ | ⟨forwarder, proper, found, rfl⟩⟩ := routeHop_forward forward
  · exact parents (rooted.up distinct aMem bMem hasParent same)
  · obtain ⟨edge, path⟩ := searchForwarder_child proper found
    obtain ⟨p, -, last⟩ := Relation.TransGen.tail'_iff.mp
      (Relation.TransGen.head' (r := Edge (childrenOf (net.table a))) edge path)
    exact absurd (honest.child_mem last) outside

end

/-- In a frozen state whose best parents form a tree, no packet visits a node twice, if every control
    message of the history went to the sender's best parent in that state. -/
theorem forwarding_loopFree (distinct : DistinctIds nodes) (nonzero : ∀ i ∈ nodes, i.u8_0 ≠ 0)
    {packetbufSize : Nat} (big : 128 ≤ packetbufSize) {trace : List (Net × NetAction)}
    (run : Run (Net.step nodes packetbufSize) anyStep (Net.boot BeaconNet.cold) trace net)
    (rooted : TreeRooted nodes net)
    (steady : ∀ child parent, SentTo packetbufSize trace child parent → net.best child = parent)
    (dstId : UInt8) (i : LinkAddr) : ¬ Relation.TransGen (ForwardsTo nodes net dstId) i i := by
  have honest := run_honest big (run_sendsOver run)
  intro cycle
  -- Any node of the network gives the root of the tree.
  obtain ⟨_, ⟨iMem, -⟩, -⟩ := Relation.TransGen.head'_iff.mp cycle
  obtain ⟨root, rootMem, isRoot, -⟩ := rooted.climbs i iMem
  let T := rooted.tree distinct rootMem isRoot
  have parents : ∀ {c p}, frozenParent nodes net c = some p → T.Up c p := fun up => up
  have follows : ∀ {c p}, Linked nodes (SentTo packetbufSize trace) c p → T.Up c p := fun linked =>
    have ⟨_, _, _, _, _, proper⟩ := linked.link
    frozenParent_eq.mpr ⟨linked.child_mem, linked.parent_mem, steady _ _ linked.link, proper⟩
  by_cases inNetwork : ∃ d ∈ nodes, d.u8_0 = dstId
  · obtain ⟨d, dMem, rfl⟩ := inNetwork
    exact ParentTree.Hop.acyclic i (Relation.TransGen.mono
      (fun _ _ hop => honest.hop distinct nonzero rooted follows parents dMem hop) _ _ cycle)
  · obtain ⟨p, first, rest⟩ := Relation.TransGen.head'_iff.mp cycle
    exact ParentTree.Up.not_below (honest.climbs distinct rooted parents inNetwork first)
      (Relation.ReflTransGen.mono
        (fun _ _ hop => honest.climbs distinct rooted parents inNetwork hop) _ _ rest)

/-- After the first report node 1 forwards packets for node 2 to it, and no packet runs in a loop. -/
theorem forwarding_loopFree_firstReport :
    ∃ trace net, Run (Net.step {⟨1, 0⟩, ⟨2, 0⟩} 128) anyStep (Net.boot BeaconNet.cold) trace net ∧
      ForwardsTo {⟨1, 0⟩, ⟨2, 0⟩} net 2 ⟨1, 0⟩ ⟨2, 0⟩ ∧
      ¬ Relation.TransGen (ForwardsTo {⟨1, 0⟩, ⟨2, 0⟩} net 2) ⟨1, 0⟩ ⟨1, 0⟩ := by
  let nodes : Finset LinkAddr := {⟨1, 0⟩, ⟨2, 0⟩}
  have reported : ((execute (Net.step nodes 128) (Net.boot BeaconNet.cold) firstReport).map fun net =>
      (net.best ⟨1, 0⟩, net.best ⟨2, 0⟩, routeHop 4 (net.table ⟨1, 0⟩) (net.best ⟨1, 0⟩) 1 2)) =
      some (linkaddrNull, ⟨1, 0⟩, some (.forward ⟨2, 0⟩)) := by
    decide +kernel
  have actions : (history (Net.step nodes 128) (Net.boot BeaconNet.cold) firstReport).map Prod.snd =
      firstReport.reverse := by
    decide +kernel
  have toOne : ∀ e ∈ history (Net.step nodes 128) (Net.boot BeaconNet.cold) firstReport,
      e.2 = .sendControl ⟨2, 0⟩ → e.1.best ⟨2, 0⟩ = ⟨1, 0⟩ := by
    decide +kernel
  obtain ⟨net, executed, view⟩ := Option.map_eq_some_iff.mp reported
  obtain ⟨best1, best2, down⟩ : net.best ⟨1, 0⟩ = linkaddrNull ∧ net.best ⟨2, 0⟩ = ⟨1, 0⟩ ∧
      routeHop 4 (net.table ⟨1, 0⟩) (net.best ⟨1, 0⟩) 1 2 = some (.forward ⟨2, 0⟩) := by
    simpa only [Prod.mk.injEq] using view
  have run := Run.of_execute anyStep (fun _ _ _ => trivial) executed
  have ranked : RankedParents nodes ⟨1, 0⟩ (fun i => i.u8_0.toNat) net := by
    refine ⟨best1, fun i member away => ?_⟩
    obtain rfl : i = ⟨2, 0⟩ := by simpa [nodes, away] using member
    rw [best2]
    decide
  have rooted := ranked.treeRooted (by decide) (by decide) rfl
  refine ⟨_, net, run, ⟨by decide, by decide, 4, _, down, rfl⟩,
    forwarding_loopFree (by decide) (by decide) (by decide) run rooted ?_ 2 ⟨1, 0⟩⟩
  rintro child parent ⟨pre, frame, member, -, best, -⟩
  have sent : NetAction.sendControl child ∈ firstReport.reverse :=
    actions ▸ List.mem_map_of_mem member
  obtain rfl : child = ⟨2, 0⟩ := by simpa [firstReport] using sent
  rw [best2, ← best, toOne _ member rfl]

end TreeRssi
